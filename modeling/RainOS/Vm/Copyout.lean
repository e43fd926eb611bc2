import Mathlib.Data.List.GetD
import RainOS.Vm.Contents
import RainOS.Vm.Image

/-!
# Copying to user memory

What `copyout` does to the bytes of memory. In a directory whose tables and usable frames are different pages of the
kernel, a copy that finds a table for every page it comes to stores the buffer at the user addresses, up to the first
page that is not for the user, and nothing else. A page without a table is not refused: `uva2ka` does not test what
`walkpgdir` returns, and takes the word at address 0 for the entry.
-/

namespace RainOS.Vm

open Kalloc Function List

variable {m m' : Memory} {l : List Nat} {own : Nat → Option Owner} {word word' word'' : Nat → Nat}
  {p q d i j k n t a va cur sz fuel x y len uva : Nat} {buf bytes bytes' : List UInt8}

/-! ### Bytes of memory -/

def physByte (word : Nat → Nat) (a : Nat) : Nat := word (a / 4 * 4) / 256 ^ (a % 4) % 256

theorem byteAt_eq (word : Nat → Nat) (d va : Nat) : byteAt word d va = (translate word d va).map (physByte word) := rfl

theorem physByte_putBytes (word : Nat → Nat) (dst : Nat) (bytes : List UInt8) (a : Nat) :
    physByte (putBytes word dst bytes) a =
      if dst ≤ a ∧ a < dst + bytes.length then (bytes.getD (a - dst) 0).toNat else physByte word a := by
  have hsplit : a / 4 * 4 + a % 4 = a := by omega
  unfold physByte putBytes
  by_cases hword : a / 4 * 4 % 4 = 0 ∧ dst < a / 4 * 4 + 4 ∧ a / 4 * 4 < dst + bytes.length
  · rw [if_pos hword, Mem.word_div _ 0 (Nat.mod_lt a (by decide)), Nat.zero_add, hsplit]
    split
    · rfl
    · exact UInt8.toNat_ofNat'
  · rw [if_neg hword, if_neg (by omega)]

/-! ### Directories -/

def Usable (word : Nat → Nat) (d k : Nat) : Prop := Present (pteAt word d k) ∧ pteAt word d k / pteU % 2 = 1

instance (word : Nat → Nat) (d k : Nat) : Decidable (Usable word d k) := inferInstanceAs (Decidable (_ ∧ _))

/-- A page directory: its tables and the frames of its usable pages are kernel addresses, no such frame is the
directory or a table of it, and none is the frame of another page that is usable or below `KERNBASE`. -/
structure Proper (word : Nat → Nat) (d : Nat) : Prop where
  aligned : d % pgsize = 0
  table : ∀ i < npdentries, ∀ t, tableAt word d i = some t → kernbase ≤ t
  frame : ∀ k < 2 ^ 20, Usable word d k → ∀ p, frameAt word d k = some p →
    kernbase ≤ p ∧ p ≠ d ∧ ∀ i < npdentries, tableAt word d i ≠ some p
  distinct : ∀ j < 2 ^ 20, Usable word d j → ∀ k < 2 ^ 20, Usable word d k ∨ k < userPages →
    frameAt word d j = frameAt word d k → j = k

structure SameMap (word : Nat → Nat) (d : Nat) (word' : Nat → Nat) : Prop where
  tables : ∀ i < npdentries, tableAt word' d i = tableAt word d i
  entries : ∀ k < 2 ^ 20, pteAt word' d k = pteAt word d k

theorem SameMap.refl (word : Nat → Nat) (d : Nat) : SameMap word d word := ⟨fun _ _ => rfl, fun _ _ => rfl⟩

theorem SameMap.trans (h : SameMap word d word') (h' : SameMap word' d word'') : SameMap word d word'' :=
  ⟨fun i hi => (h'.tables i hi).trans (h.tables i hi), fun k hk => (h'.entries k hk).trans (h.entries k hk)⟩

theorem SameMap.frameAt (h : SameMap word d word') (hk : k < 2 ^ 20) : frameAt word' d k = Vm.frameAt word d k :=
  frameAt_eq_of_eq (h.entries k hk)

theorem SameMap.usable (h : SameMap word d word') (hk : k < 2 ^ 20) : Usable word' d k ↔ Usable word d k := by
  rw [Usable, Usable, h.entries k hk]

theorem page_of_lt (hva : va < 2 ^ 32) : va / pgsize < 2 ^ 20 := by
  simp only [pgsize]
  omega

theorem SameMap.translate (h : SameMap word d word') (hva : va < 2 ^ 32) :
    translate word' d va = Vm.translate word d va := by
  rw [translate_eq hva, translate_eq hva, h.frameAt (page_of_lt hva)]

theorem Proper.congr (h : Proper word d) (hsame : SameMap word d word') : Proper word' d := by
  refine ⟨h.aligned, fun i hi t ht => ?_, fun k hk huse p hp => ?_, fun j hj huse k hk hk' heq => ?_⟩
  · exact h.table i hi t (by rwa [← hsame.tables i hi])
  · rw [hsame.usable hk] at huse
    rw [hsame.frameAt hk] at hp
    obtain ⟨hle, hne, htables⟩ := h.frame k hk huse p hp
    exact ⟨hle, hne, fun i hi => by rw [hsame.tables i hi]; exact htables i hi⟩
  · rw [hsame.usable hj] at huse
    rw [hsame.usable hk] at hk'
    rw [hsame.frameAt hj, hsame.frameAt hk] at heq
    exact h.distinct j hj huse k hk hk' heq

theorem Usable.frame (h : Usable word d k) : frameAt word d k = some (p2v (pteAddr (pteAt word d k))) :=
  decode_eq_some.mpr ⟨h.1, rfl⟩

theorem page_index (hk : k < 2 ^ 20) : k / nptentries < npdentries := by
  have hdiv : k / 1024 < 1024 := by omega
  exact hdiv

theorem Proper.same (h : Proper word d) (hk : k < 2 ^ 20) (huse : Usable word d k) (hp : frameAt word d k = some p)
    (hword : ∀ a, pgrounddown a ≠ p → word' a = word a) : SameMap word d word' := by
  obtain ⟨-, hne, htables⟩ := h.frame k hk huse p hp
  have htable : ∀ i < npdentries, tableAt word' d i = tableAt word d i := by
    intro i hi
    apply target_eq_of_eq
    apply hword
    rw [pgrounddown_word h.aligned hi]
    exact hne.symm
  refine ⟨htable, fun n hn => ?_⟩
  have hi := page_index hn
  refine pteAt_eq_of_eq (htable _ hi) fun t ht => ?_
  apply hword
  rw [pgrounddown_word (decode_aligned ht) (mod_lt n)]
  rintro rfl
  exact htables _ hi ht

theorem Proper.translate_inj (h : Proper word d) (hx : x < 2 ^ 32) (hy : y < 2 ^ 32)
    (huse : Usable word d (x / pgsize)) (huse' : Usable word d (y / pgsize) ∨ y < kernbase)
    (hxa : translate word d x = some a) (hya : translate word d y = some a) : x = y := by
  rw [translate_eq hx] at hxa
  rw [translate_eq hy] at hya
  obtain ⟨p, hp, rfl⟩ := Option.map_eq_some_iff.mp hxa
  obtain ⟨q, hq, heq⟩ := Option.map_eq_some_iff.mp hya
  have hpa := decode_aligned hp
  have hqa := decode_aligned hq
  simp only [pgsize] at hpa hqa heq
  have hpq : q = p := by omega
  have hpages : x / pgsize = y / pgsize := by
    refine h.distinct _ (page_of_lt hx) huse _ (page_of_lt hy) (huse'.imp_right fun hlt => ?_) (by rw [hp, hq, hpq])
    simp only [kernbase] at hlt
    change y / 4096 < 524288
    omega
  simp only [pgsize] at hpages
  omega

/-! ### What a copy leaves -/

/-- The bytes are at the user addresses from `va` on, which are on usable pages, and no other byte has changed. -/
structure Wrote (word : Nat → Nat) (d va : Nat) (bytes : List UInt8) (word' : Nat → Nat) : Prop where
  same : SameMap word d word'
  usable : ∀ i < bytes.length, Usable word d ((va + i) / pgsize)
  new : ∀ i < bytes.length, byteAt word' d (va + i) = some (bytes.getD i 0).toNat
  other : ∀ a, (∀ i < bytes.length, translate word d (va + i) ≠ some a) → physByte word' a = physByte word a

theorem Wrote.nil (word : Nat → Nat) (d va : Nat) : Wrote word d va [] word :=
  ⟨.refl word d, fun _ hi => (nomatch hi), fun _ hi => (nomatch hi), fun _ _ => rfl⟩

theorem Wrote.outside (h : Wrote word d va bytes word') (hproper : Proper word d) (hva : va + bytes.length ≤ 2 ^ 32) (hx : x < 2 ^ 32) (hx' : Usable word d (x / pgsize) ∨ x < kernbase)
    (hout : ¬(va ≤ x ∧ x < va + bytes.length)) : byteAt word' d x = byteAt word d x := by
  rw [byteAt_eq, byteAt_eq, h.same.translate hx]
  cases ha : translate word d x with
  | none => rfl
  | some a =>
    rw [Option.map_some, Option.map_some, h.other a fun i hi hia => hout ?_]
    have heq := hproper.translate_inj (by omega) hx (h.usable i hi) hx' hia ha
    omega

theorem Wrote.append (h : Wrote word d va bytes word') (hproper : Proper word d)
    (h' : Wrote word' d (va + bytes.length) bytes' word'') (hva : va + bytes.length + bytes'.length ≤ 2 ^ 32) :
    Wrote word d va (bytes ++ bytes') word'' := by
  have husable : ∀ i < bytes'.length, Usable word d ((va + bytes.length + i) / pgsize) := by
    intro i hi
    rw [← h.same.usable (page_of_lt (by omega))]
    exact h'.usable i hi
  refine ⟨h.same.trans h'.same, fun i hi => ?_, fun i hi => ?_, fun a ha => ?_⟩
  · rw [length_append] at hi
    by_cases hlt : i < bytes.length
    · exact h.usable i hlt
    · have huse := husable (i - bytes.length) (by omega)
      rwa [Nat.add_assoc, Nat.add_sub_of_le (Nat.le_of_not_lt hlt)] at huse
  · rw [length_append] at hi
    by_cases hlt : i < bytes.length
    · rw [getD_append _ _ _ _ hlt, ← h.new i hlt]
      refine h'.outside (hproper.congr h.same) hva (by omega) (.inl ?_) (by omega)
      rw [h.same.usable (page_of_lt (by omega))]
      exact h.usable i hlt
    · have hnew := h'.new (i - bytes.length) (by omega)
      rw [Nat.add_assoc, Nat.add_sub_of_le (Nat.le_of_not_lt hlt)] at hnew
      rw [hnew, getD_append_right _ _ _ _ (Nat.le_of_not_lt hlt)]
  · have hfirst : ∀ i < bytes.length, translate word d (va + i) ≠ some a := fun i hi =>
      ha i (by rw [length_append]; omega)
    have hrest : ∀ i < bytes'.length, translate word' d (va + bytes.length + i) ≠ some a := by
      intro i hi
      rw [h.same.translate (by omega), Nat.add_assoc]
      exact ha (bytes.length + i) (by rw [length_append]; omega)
    rw [h'.other a hrest, h.other a hfirst]

theorem Proper.wrote (h : Proper word d) (hva : va < 2 ^ 32) (huse : Usable word d (va / pgsize))
    (hp : frameAt word d (va / pgsize) = some p) (hlen : va % pgsize + bytes.length ≤ pgsize) :
    Wrote word d va bytes (putBytes word (p + va % pgsize) bytes) := by
  have hk := page_of_lt hva
  have hpage : ∀ i < bytes.length, (va + i) / pgsize = va / pgsize ∧ (va + i) % pgsize = va % pgsize + i := by
    intro i hi
    simp only [pgsize] at hlen ⊢
    omega
  have hlt : ∀ i < bytes.length, va + i < 2 ^ 32 := by
    intro i hi
    simp only [pgsize] at hlen
    omega
  have htranslate : ∀ i < bytes.length, translate word d (va + i) = some (p + (va % pgsize + i)) := by
    intro i hi
    rw [translate_eq (hlt i hi), (hpage i hi).1, (hpage i hi).2, hp]
    rfl
  have hsame := h.same hk huse hp fun a ha => putBytes_of_ne (decode_aligned hp) hlen ha
  refine ⟨hsame, fun i hi => ?_, fun i hi => ?_, fun a ha => ?_⟩
  · rw [(hpage i hi).1]
    exact huse
  · rw [byteAt_eq, hsame.translate (hlt i hi), htranslate i hi, Option.map_some, physByte_putBytes,
      if_pos ⟨by omega, by omega⟩]
    congr 3
    omega
  · rw [physByte_putBytes, if_neg]
    rintro ⟨hlo, hhi⟩
    refine ha (a - (p + va % pgsize)) (by omega) ?_
    rw [htranslate _ (by omega)]
    congr 1
    omega

/-! ### The loop -/

def Touched (va len k : Nat) : Prop := ∃ i < len, (va + i) / pgsize = k

/-- The first page that is not usable, if the copy comes to one, has a table. -/
def Ready (word : Nat → Nat) (d va len : Nat) : Prop :=
  ∀ k, Touched va len k → (∀ j < k, Touched va len j → Usable word d j) → tableAt word d (k / nptentries) ≠ none

theorem uva2ka_exact (cur : Nat) (h : Proper m.word d) (hva : va < 2 ^ 32)
    (htable : tableAt m.word d (va / pgsize / nptentries) ≠ none) :
    uva2ka cur d va m = .ok (if Usable m.word d (va / pgsize) then p2v (pteAddr (pteAt m.word d (va / pgsize))) else 0) m := by
  obtain ⟨t, ht⟩ := Option.ne_none_iff_exists'.mp htable
  have hle := h.table _ (page_index (page_of_lt hva)) t ht
  have hrun : walkpgdir d va false m = .ok (t + 4 * ptx va) m := walkpgdir_found false va (by rw [pdx_eq hva, ht])
  have hkaddr : kaddr cur (t + 4 * ptx va) m = .ok (t + 4 * ptx va) m := by
    rw [kaddr, if_pos (Nat.le_trans hle (Nat.le_add_right t _))]
    rfl
  have hword : m.word (t + 4 * ptx va) = pteAt m.word d (va / pgsize) := by
    rw [ptx_eq, pteAt_of_some ht]
  unfold uva2ka
  rw [bind_ok _ hrun, bind_ok _ hkaddr, bind_ok _ (get_run m), hword]
  by_cases hpresent : Present (pteAt m.word d (va / pgsize))
  · rw [if_neg (not_not_intro hpresent)]
    by_cases huser : pteAt m.word d (va / pgsize) / pteU % 2 = 0
    · have hnot : ¬Usable m.word d (va / pgsize) := fun huse => by
        have hone := huse.2
        omega
      rw [if_pos huser, if_neg hnot]
      rfl
    · have huse : Usable m.word d (va / pgsize) := ⟨hpresent, by omega⟩
      rw [if_neg huser, if_pos huse]
      rfl
  · have hnot : ¬Usable m.word d (va / pgsize) := fun huse => hpresent huse.1
    rw [if_pos hpresent, if_neg hnot]
    rfl

theorem Touched.split (h : pgsize - va % pgsize ≤ len) :
    Touched va len k ↔ k = va / pgsize ∨ Touched (pgrounddown va + pgsize) (len - (pgsize - va % pgsize)) k := by
  have hround : pgrounddown va + pgsize = va + (pgsize - va % pgsize) := by
    simp only [pgrounddown, pgsize]
    omega
  rw [hround]
  constructor
  · rintro ⟨i, hi, rfl⟩
    by_cases hlt : i < pgsize - va % pgsize
    · left
      simp only [pgsize] at hlt ⊢
      omega
    · right
      exact ⟨i - (pgsize - va % pgsize), by omega, by congr 1; omega⟩
  · rintro (rfl | ⟨i, hi, rfl⟩)
    · exact ⟨0, by simp only [pgsize] at h ⊢; omega, rfl⟩
    · exact ⟨pgsize - va % pgsize + i, by omega, by congr 1; omega⟩

theorem Touched.first (hlen : 0 < len) : Touched va len (va / pgsize) := ⟨0, hlen, rfl⟩

theorem Touched.le (h : Touched va len k) : va / pgsize ≤ k := by
  obtain ⟨i, -, rfl⟩ := h
  exact Nat.div_le_div_right (Nat.le_add_right va i)

theorem Ready.table (h : Ready word d va len) (hlen : 0 < len) :
    tableAt word d (va / pgsize / nptentries) ≠ none :=
  h _ (.first hlen) fun _ hj htouched => absurd htouched.le (Nat.not_le_of_lt hj)

theorem sub_pgrounddown (va : Nat) : va - pgrounddown va = va % pgsize := by
  simp only [pgrounddown, pgsize]
  omega

theorem pgrounddown_div (va : Nat) : pgrounddown va / pgsize = va / pgsize := Nat.mul_div_cancel _ (by decide)

theorem pgrounddown_le (va : Nat) : pgrounddown va ≤ va := Nat.div_mul_le_self va pgsize

/-- `copyout` calls `uva2ka` for an address, in a memory. -/
inductive Calls (cur d : Nat) : Nat → List UInt8 → Memory → Nat → Memory → Prop
  | first {va : Nat} {buf : List UInt8} {m : Memory} (hbuf : buf ≠ []) : Calls cur d va buf m (pgrounddown va) m
  | next {va : Nat} {buf : List UInt8} {m m₁ m₂ m' : Memory} {pa0 uva : Nat} (hbuf : buf ≠ [])
      (hpa : uva2ka cur d (pgrounddown va) m = .ok pa0 m₁) (hne : pa0 ≠ 0)
      (hmove : memmove cur ((pa0 + (va - pgrounddown va)) % 2 ^ 32) (buf.take (pgsize - (va - pgrounddown va))) m₁ =
        .ok () m₂)
      (hrest : Calls cur d ((pgrounddown va + pgsize) % 2 ^ 32) (buf.drop (pgsize - (va - pgrounddown va))) m₂ uva m') :
      Calls cur d va buf m uva m'

theorem Calls.ne_nil (h : Calls cur d va buf m uva m') : buf ≠ [] := by
  cases h with
  | first hbuf => exact hbuf
  | next hbuf => exact hbuf

theorem copyout_round (cur : Nat) (h : Proper m.word d) (hbuf : buf ≠ []) (hva : va + buf.length ≤ 2 ^ 32)
    (huse : Usable m.word d (va / pgsize)) :
    ∃ pa0 word', uva2ka cur d (pgrounddown va) m = .ok pa0 m ∧ pa0 ≠ 0 ∧
      memmove cur ((pa0 + (va - pgrounddown va)) % 2 ^ 32) (buf.take (pgsize - (va - pgrounddown va))) m =
        .ok () { m with word := word' } ∧
      Wrote m.word d va (buf.take (pgsize - (va - pgrounddown va))) word' := by
  have hlen := length_pos_iff.mpr hbuf
  have hlt : va < 2 ^ 32 := by omega
  have huva := uva2ka_exact cur h (Nat.lt_of_le_of_lt (pgrounddown_le va) hlt)
    (by rw [pgrounddown_div]; exact tableAt_ne_none huse.1)
  rw [pgrounddown_div, if_pos huse] at huva
  have hp := huse.frame
  generalize p2v (pteAddr (pteAt m.word d (va / pgsize))) = p at huva hp
  have hle := (h.frame _ (page_of_lt hlt) huse p hp).1
  have halign := decode_aligned hp
  have hword : p < 2 ^ 32 := by
    obtain ⟨-, rfl⟩ := decode_eq_some.mp hp
    exact Nat.mod_lt _ (by decide)
  have haddr : (p + va % pgsize) % 2 ^ 32 = p + va % pgsize := by
    simp only [pgsize] at halign ⊢
    omega
  have hchunk : buf.take (pgsize - va % pgsize) ≠ [] := by
    rw [ne_eq, take_eq_nil_iff]
    simp only [pgsize]
    simp only [hbuf, or_false]
    omega
  have hkaddr : kaddr cur (p + va % pgsize) m = .ok (p + va % pgsize) m := by
    rw [kaddr, if_pos (Nat.le_trans hle (Nat.le_add_right p _))]
    rfl
  rw [sub_pgrounddown]
  refine ⟨p, putBytes m.word (p + va % pgsize) (buf.take (pgsize - va % pgsize)), huva, ?_, ?_, h.wrote hlt huse hp ?_⟩
  · simp only [kernbase] at hle
    omega
  · rw [haddr]
    unfold memmove
    rw [if_pos hchunk, bind_ok _ hkaddr]
    rfl
  · rw [length_take]
    simp only [pgsize]
    omega

theorem copyout_left (hva : va + buf.length ≤ 2 ^ 32) (hrest : buf.drop (pgsize - (va - pgrounddown va)) ≠ []) :
    (pgrounddown va + pgsize) % 2 ^ 32 = pgrounddown va + pgsize ∧ pgsize - va % pgsize ≤ buf.length ∧
      (buf.drop (pgsize - (va - pgrounddown va))).length = buf.length - (pgsize - va % pgsize) ∧
      pgrounddown va + pgsize = va + (buf.take (pgsize - (va - pgrounddown va))).length ∧
      pgrounddown va + pgsize + (buf.drop (pgsize - (va - pgrounddown va))).length = va + buf.length ∧
      (buf.drop (pgsize - (va - pgrounddown va))).length < buf.length := by
  rw [sub_pgrounddown] at hrest ⊢
  have hmore : pgsize - va % pgsize < buf.length := by
    by_contra hge
    exact hrest (drop_of_length_le (Nat.le_of_not_lt hge))
  have hsplit : pgrounddown va + pgsize = va + (pgsize - va % pgsize) := by
    simp only [pgrounddown, pgsize]
    omega
  have hpos : 0 < pgsize - va % pgsize := Nat.sub_pos_of_lt (Nat.mod_lt va (by decide))
  rw [length_drop, length_take, Nat.min_eq_left (Nat.le_of_lt hmore)]
  exact ⟨Nat.mod_eq_of_lt (by omega), Nat.le_of_lt hmore, rfl, hsplit, by omega, by omega⟩

theorem Ready.next (h : Ready word d va len) (hsame : SameMap word d word') (hva : va + len ≤ 2 ^ 32)
    (huse : Usable word d (va / pgsize)) (hmore : pgsize - va % pgsize ≤ len) :
    Ready word' d (pgrounddown va + pgsize) (len - (pgsize - va % pgsize)) := by
  intro k htouched hbefore
  have hlt : ∀ j, Touched va len j → j < 2 ^ 20 := by
    rintro j ⟨i, hi, rfl⟩
    exact page_of_lt (by omega)
  have hall := (Touched.split hmore).mpr (.inr htouched)
  rw [hsame.tables _ (page_index (hlt k hall))]
  refine h k hall fun j hj hj' => ?_
  obtain rfl | hj'' := (Touched.split hmore).mp hj'
  · exact huse
  · rw [← hsame.usable (hlt j hj')]
    exact hbefore j hj hj''

theorem copyoutLoop_exact (cur fuel : Nat) (hfuel : buf.length ≤ fuel) (h : Proper m.word d) (hva : va + buf.length ≤ 2 ^ 32)
    (hready : Ready m.word d va buf.length) :
    ∃ r n word', copyoutLoop cur d fuel va buf m = .ok r { m with word := word' } ∧
      Wrote m.word d va (buf.take n) word' ∧
      (r = 0 ∧ buf.length ≤ n ∨ r = -1 ∧ ∃ k, Touched va buf.length k ∧ ¬Usable m.word d k) := by
  induction fuel generalizing m va buf with
  | zero =>
    have hnil : buf = [] := length_eq_zero_iff.mp (Nat.le_zero.mp hfuel)
    subst hnil
    exact ⟨0, 0, m.word, rfl, .nil .., .inl ⟨rfl, Nat.le_refl 0⟩⟩
  | succ fuel ih =>
    by_cases hbuf : buf = []
    · subst hbuf
      exact ⟨0, 0, m.word, copyoutLoop_nil .., .nil .., .inl ⟨rfl, Nat.le_refl 0⟩⟩
    have hlen := length_pos_iff.mpr hbuf
    unfold copyoutLoop
    rw [if_neg hbuf]
    by_cases huse : Usable m.word d (va / pgsize)
    · obtain ⟨pa0, word₁, huva, hne, hmove, hwrote⟩ := copyout_round cur h hbuf hva huse
      rw [bind_ok _ huva, if_neg hne, bind_ok _ hmove]
      by_cases hrest : buf.drop (pgsize - (va - pgrounddown va)) = []
      · rw [hrest]
        exact ⟨0, _, word₁, copyoutLoop_nil .., hwrote, .inl ⟨rfl, drop_eq_nil_iff.mp hrest⟩⟩
      · obtain ⟨haddr, hmore, hlength, hnext, htotal, hless⟩ := copyout_left hva hrest
        have hproper := h.congr hwrote.same
        have hready' := hready.next hwrote.same hva huse hmore
        rw [← hlength] at hready'
        rw [haddr]
        obtain ⟨r, n, word₂, hrun, hwrote', hends⟩ := ih (m := { m with word := word₁ }) (by omega) hproper
          (htotal.trans_le hva) hready'
        rw [hnext] at hwrote'
        refine ⟨r, pgsize - (va - pgrounddown va) + n, word₂, hrun, ?_, ?_⟩
        · rw [take_add]
          refine hwrote.append h hwrote' ?_
          rw [← hnext]
          have htake := length_take_le' n (buf.drop (pgsize - (va - pgrounddown va)))
          omega
        · refine hends.imp (fun hr => ⟨hr.1, ?_⟩) fun hr => ⟨hr.1, ?_⟩
          · rw [length_drop] at hr
            omega
          · obtain ⟨k, hk, hnot⟩ := hr.2
            rw [hlength] at hk
            have hall := (Touched.split hmore).mpr (.inr hk)
            refine ⟨k, hall, fun huse' => hnot ?_⟩
            obtain ⟨i, hi, rfl⟩ := hall
            rwa [hwrote.same.usable (page_of_lt (by omega))]
    · have huva := uva2ka_exact cur h (Nat.lt_of_le_of_lt (pgrounddown_le va) (by omega))
        (by rw [pgrounddown_div]; exact hready.table hlen)
      rw [pgrounddown_div, if_neg huse] at huva
      rw [bind_ok _ huva, if_pos rfl]
      exact ⟨-1, 0, m.word, rfl, .nil .., .inr ⟨rfl, _, .first hlen, huse⟩⟩

theorem Calls.found (hcalls : Calls cur d va buf m uva m') (h : Proper m.word d)
    (hva : va + buf.length ≤ 2 ^ 32) (hready : Ready m.word d va buf.length) : walkpgdir d uva false m' ≠ .ok 0 m' := by
  induction hcalls with
  | @first va buf m hbuf =>
    have hlen := length_pos_iff.mpr hbuf
    have hva' : va < 2 ^ 32 := by omega
    have hlt : pgrounddown va < 2 ^ 32 := Nat.lt_of_le_of_lt (pgrounddown_le va) hva'
    obtain ⟨t, ht⟩ := Option.ne_none_iff_exists'.mp (hready.table hlen)
    have hle := h.table _ (page_index (page_of_lt hva')) t ht
    rw [walkpgdir_found false (t := t) _ (by rw [pdx_eq hlt, pgrounddown_div, ht])]
    intro heq
    injection heq with heq
    simp only [kernbase] at hle
    omega
  | @next va buf m m₁ m₂ m' pa0 uva hbuf hpa hne hmove hrest ih =>
    have hlen := length_pos_iff.mpr hbuf
    have huva := uva2ka_exact cur h (Nat.lt_of_le_of_lt (pgrounddown_le va) (by omega))
      (by rw [pgrounddown_div]; exact hready.table hlen)
    rw [hpa, pgrounddown_div] at huva
    injection huva with hpa0 hm₁
    subst hm₁
    by_cases huse : Usable m₁.word d (va / pgsize)
    · obtain ⟨pa1, word₁, hpa', -, hmove', hwrote⟩ := copyout_round cur h hbuf hva huse
      rw [hpa] at hpa'
      injection hpa' with hpa'
      subst hpa'
      rw [hmove] at hmove'
      injection hmove' with _ hm₂
      subst hm₂
      obtain ⟨haddr, hmore, hlength, -, htotal, -⟩ := copyout_left hva hrest.ne_nil
      have hready' := hready.next hwrote.same hva huse hmore
      rw [← hlength] at hready'
      rw [haddr] at ih
      exact ih (h.congr hwrote.same) (htotal.trans_le hva) hready'
    · rw [if_neg huse] at hpa0
      exact absurd hpa0 hne

theorem Calls.missing (cur : Nat) (h : Proper m.word d) (hva : va + buf.length ≤ 2 ^ 32) (hk : Touched va buf.length k)
    (hbefore : ∀ j < k, Touched va buf.length j → Usable m.word d j) (hmissing : tableAt m.word d (k / nptentries) = none) :
    ∃ uva m', Calls cur d va buf m uva m' ∧ walkpgdir d uva false m' = .ok 0 m' := by
  induction hn : k - va / pgsize generalizing va buf m with
  | zero =>
    have heq : k = va / pgsize := Nat.le_antisymm (Nat.sub_eq_zero_iff_le.mp hn) hk.le
    obtain ⟨i, hi, -⟩ := hk
    have hbuf : buf ≠ [] := length_pos_iff.mp (by omega)
    have hlt : pgrounddown va < 2 ^ 32 := Nat.lt_of_le_of_lt (pgrounddown_le va) (by omega)
    refine ⟨_, m, .first hbuf, walkpgdir_missing ?_⟩
    rw [pdx_eq hlt, pgrounddown_div, ← heq, hmissing]
  | succ n ih =>
    have hlen : 0 < buf.length := by
      obtain ⟨i, hi, -⟩ := hk
      omega
    have hbuf : buf ≠ [] := length_pos_iff.mp hlen
    have huse := hbefore (va / pgsize) (by omega) (.first hlen)
    obtain ⟨pa0, word₁, huva, hne, hmove, hwrote⟩ := copyout_round cur h hbuf hva huse
    have hrest : buf.drop (pgsize - (va - pgrounddown va)) ≠ [] := by
      intro hnil
      rw [sub_pgrounddown, drop_eq_nil_iff] at hnil
      obtain ⟨i, hi, rfl⟩ := hk
      simp only [pgsize] at hnil hn
      omega
    obtain ⟨haddr, hmore, hlength, -, htotal, -⟩ := copyout_left hva hrest
    have hlt : ∀ j, Touched va buf.length j → j < 2 ^ 20 := by
      rintro j ⟨i, hi, rfl⟩
      exact page_of_lt (by omega)
    obtain ⟨uva, m', hcalls, hwalk⟩ := ih (m := { m with word := word₁ }) (h.congr hwrote.same) (htotal.trans_le hva)
      (by
        rw [hlength]
        exact ((Touched.split hmore).mp hk).resolve_left (by omega))
      (fun j hj hj' => by
        rw [hlength] at hj'
        have hall := (Touched.split hmore).mpr (.inr hj')
        rw [hwrote.same.usable (hlt j hall)]
        exact hbefore j hj hall)
      (by rw [hwrote.same.tables _ (page_index (hlt k hk)), hmissing])
      (by simp only [pgrounddown, pgsize] at hn ⊢; omega)
    rw [← haddr] at hcalls
    exact ⟨uva, m', .next hbuf huva hne hmove hcalls, hwalk⟩

/-! ### The directories of the kernel -/

theorem Owned.proper (h : Owned m l own) (hd : own d = some .directory)
    (hkernel : ∀ k < 2 ^ 20, userPages ≤ k → ¬Usable m.word d k) : Proper m.word d := by
  have huser : ∀ k < 2 ^ 20, Usable m.word d k → ∀ p, frameAt m.word d k = some p → own p = some (.user d k) := by
    intro k hk huse p hp
    refine h.own_frame hd (Nat.lt_of_not_le fun hge => hkernel k hk hge huse) hp
  refine ⟨h.directory_aligned hd, fun i hi t ht => ?_, fun k hk huse p hp => ?_, fun j hj huse k hk hk' heq => ?_⟩
  · exact (h.page t _ (h.own_table hd hi ht)).kernbase_le
  · have hown := huser k hk huse p hp
    refine ⟨(h.page p _ hown).kernbase_le, ?_, fun i hi ht => ?_⟩
    · rintro rfl
      rw [hd] at hown
      cases hown
    · rw [h.own_table hd hi ht] at hown
      cases hown
  · have hj' := huser j hj huse _ huse.frame
    have hframe : frameAt m.word d k = some (p2v (pteAddr (pteAt m.word d j))) := by rw [← heq, huse.frame]
    have hk'' : own (p2v (pteAddr (pteAt m.word d j))) = some (.user d k) :=
      hk'.elim (fun huse' => huser k hk huse' _ hframe) fun hlt => h.own_frame hd hlt hframe
    rw [hj'] at hk''
    cases hk''
    rfl

theorem Image.not_usable (h : Image m own d sz) (hk : k < 2 ^ 20) (hge : npages sz ≤ k) : ¬Usable m.word d k := by
  intro huse
  by_cases hkernel : KernelPage k
  · have hzero := (h.kernel k hkernel).not_user
    have hone := huse.2
    omega
  · rw [Usable, h.empty k hk hge hkernel] at huse
    exact absurd huse.1 (by decide)

theorem Image.proper (himage : Image m own d sz) (h : Owned m l own) : Proper m.word d := by
  refine h.proper himage.live fun k hk hge => himage.not_usable hk (Nat.le_trans ?_ hge)
  exact npages_le (Nat.le_of_lt himage.small)

/-! ### The call -/

/-- What is asked of `copyout`: it returns 0 if all pages are usable, the bytes are then at their addresses and no
others have changed, and it returns -1 otherwise; it writes to usable pages only and never takes an entry from a
missing table. -/
structure Handles (cur d va : Nat) (buf : List UInt8) (m : Memory) : Prop where
  result : ∃ r word', copyout cur d va buf m = .ok r { m with word := word' } ∧ (r = 0 ∨ r = -1) ∧
    (r = 0 ↔ ∀ k, Touched va buf.length k → Usable m.word d k) ∧
    (r = 0 → (∀ i < buf.length, byteAt word' d (va + i) = some (buf.getD i 0).toNat) ∧
      (∀ x < kernbase, ¬(va ≤ x ∧ x < va + buf.length) → byteAt word' d x = byteAt m.word d x) ∧
      ∀ a, (∀ i < buf.length, translate m.word d (va + i) ≠ some a) → physByte word' a = physByte m.word a) ∧
    ∀ a, physByte word' a ≠ physByte m.word a →
      ∃ k < 2 ^ 20, Usable m.word d k ∧ frameAt m.word d k = some (pgrounddown a)
  found : ∀ uva m', Calls cur d va buf m uva m' → walkpgdir d uva false m' ≠ .ok 0 m'

theorem Wrote.page (h : Wrote word d va bytes word') (hva : va + bytes.length ≤ 2 ^ 32)
    (ha : physByte word' a ≠ physByte word a) : ∃ k < 2 ^ 20, Usable word d k ∧ frameAt word d k = some (pgrounddown a) := by
  by_contra hnone
  refine ha (h.other a fun i hi htranslate => hnone ⟨(va + i) / pgsize, page_of_lt (by omega), h.usable i hi, ?_⟩)
  rw [translate_eq (by omega)] at htranslate
  obtain ⟨p, hp, rfl⟩ := Option.map_eq_some_iff.mp htranslate
  rw [hp, pgrounddown_add (decode_aligned hp) (Nat.mod_lt _ (by decide))]

/-- `copyout` is right exactly if the first page that it may not write has a page table. -/
theorem copyout_handles_iff (cur : Nat) (buf : List UInt8) (h : Proper m.word d) (hva : va + buf.length ≤ 2 ^ 32) :
    Handles cur d va buf m ↔ Ready m.word d va buf.length := by
  constructor
  · intro hhandles k hk hbefore hmissing
    obtain ⟨uva, m', hcalls, hwalk⟩ := Calls.missing cur h hva hk hbefore hmissing
    exact hhandles.found uva m' hcalls hwalk
  · intro hready
    obtain ⟨r, n, word', hrun, hwrote, hends⟩ := copyoutLoop_exact cur buf.length (Nat.le_refl _) h hva hready
    have htake := length_take_le' n buf
    refine ⟨⟨r, word', ?_, hends.imp And.left And.left, ?_, fun hr => ?_, fun a ha => ?_⟩, fun uva m' hcalls =>
      hcalls.found h hva hready⟩
    · unfold copyout
      exact hrun
    · obtain ⟨rfl, hle⟩ | ⟨rfl, k, hk, hnot⟩ := hends
      · refine iff_of_true rfl ?_
        rintro k ⟨i, hi, rfl⟩
        rw [take_of_length_le hle] at hwrote
        exact hwrote.usable i hi
      · exact iff_of_false (by decide) fun hall => hnot (hall k hk)
    · obtain ⟨-, hle⟩ | ⟨rfl, -⟩ := hends
      · rw [take_of_length_le hle] at hwrote
        refine ⟨hwrote.new, fun x hx hout => ?_, hwrote.other⟩
        simp only [kernbase] at hx
        exact hwrote.outside h hva (by omega) (.inr (by simp only [kernbase]; omega)) hout
      · cases hr
    · exact hwrote.page (by omega) ha

/-- A directory at 0x80300000 that is empty, and one at 0x80301000 that maps page 0; the first word of that page looks
like an entry for 0x400000. -/
def oneMapped : Memory :=
  { kernelEnd := 0x80300000
    word := fun a => if a = 0x80301000 then 0x302007 else if a = 0x80302000 then 0x303007
      else if a = 0x80303000 then 0x400007 else 0
    freelist := 0
    ledger := [] }

theorem oneMapped_zero (h : a ≠ 0x80301000) (h' : a ≠ 0x80302000) (h'' : a ≠ 0x80303000) : oneMapped.word a = 0 := by
  simp only [oneMapped, if_neg h, if_neg h', if_neg h'']

theorem proper_oneMapped : Proper oneMapped.word 0x80301000 := by
  have htable : ∀ i < npdentries, ∀ t, tableAt oneMapped.word 0x80301000 i = some t → i = 0 ∧ t = 0x80302000 := by
    intro i hi t ht
    change i < 1024 at hi
    by_cases hzero : i = 0
    · have hfirst : tableAt oneMapped.word 0x80301000 0 = some 0x80302000 := by decide
      rw [hzero, hfirst] at ht
      exact ⟨hzero, (Option.some.inj ht).symm⟩
    · rw [tableAt, target, oneMapped_zero (by omega) (by omega) (by omega)] at ht
      cases ht
  have hframe : ∀ k < 2 ^ 20, ∀ p, frameAt oneMapped.word 0x80301000 k = some p → k = 0 ∧ p = 0x80303000 := by
    intro k hk p hp
    cases ht : tableAt oneMapped.word 0x80301000 (k / nptentries) with
    | none =>
      rw [frameAt_of_none ht] at hp
      cases hp
    | some t =>
      obtain ⟨hdiv, rfl⟩ := htable _ (page_index hk) t ht
      change k / 1024 = 0 at hdiv
      rw [frameAt_of_some ht] at hp
      by_cases hzero : k = 0
      · have hfirst : target oneMapped.word (0x80302000 + 4 * (0 % nptentries)) = some 0x80303000 := by decide
        rw [hzero, hfirst] at hp
        exact ⟨hzero, (Option.some.inj hp).symm⟩
      · change target oneMapped.word (0x80302000 + 4 * (k % 1024)) = some p at hp
        rw [target, oneMapped_zero (by omega) (by omega) (by omega)] at hp
        cases hp
  refine ⟨by decide, fun i hi t ht => ?_, fun k hk _ p hp => ?_, fun j hj huse k hk _ heq => ?_⟩
  · rw [(htable i hi t ht).2]
    decide
  · obtain ⟨-, rfl⟩ := hframe k hk p hp
    refine ⟨by decide, by decide, fun i hi ht => ?_⟩
    exact absurd (htable i hi _ ht).2 (by decide)
  · have hj' := hframe j hj _ huse.frame
    have hk' := hframe k hk _ (heq ▸ huse.frame)
    rw [hj'.1, hk'.1]

theorem copyout_handles_iff_oneMapped : Proper oneMapped.word 0x80301000 ∧ 4094 + [1, 2, 3].length ≤ 2 ^ 32 ∧
    Handles 0x80301000 0x80301000 4094 [1, 2, 3] oneMapped := by
  refine ⟨proper_oneMapped, by decide, (copyout_handles_iff _ _ proper_oneMapped (by decide)).mpr ?_⟩
  rintro k ⟨i, hi, rfl⟩ -
  have hdiv : (4094 + i) / 4096 / 1024 = 0 := by
    change i < 3 at hi
    omega
  change tableAt oneMapped.word 0x80301000 ((4094 + i) / 4096 / 1024) ≠ none
  rw [hdiv]
  exact nofun

/-- Nothing is mapped, but the copy succeeds: it stores where the first word of the current process says. -/
theorem copyout_through_null : ∃ m', copyout 0x80301000 0x80300000 0 [1] oneMapped = .ok 0 m' ∧
    m'.word 0x80400000 = 1 ∧ Touched 0 1 0 ∧ ¬Usable oneMapped.word 0x80300000 0 ∧
    ¬Handles 0x80301000 0x80300000 0 [1] oneMapped := by
  have hmissing : tableAt oneMapped.word 0x80300000 0 = none := by decide
  have hwalk : walkpgdir 0x80300000 0 false oneMapped = .ok 0 oneMapped := walkpgdir_missing hmissing
  have huva : uva2ka 0x80301000 0x80300000 (pgrounddown 0) oneMapped = .ok 0x80400000 oneMapped := by
    rw [show pgrounddown 0 = 0 from rfl]
    unfold uva2ka
    rw [bind_ok _ hwalk]
    rfl
  refine ⟨{ oneMapped with word := putBytes oneMapped.word 0x80400000 [1] }, ?_, by decide, ⟨0, by decide, rfl⟩, by decide,
    fun h => h.found 0 oneMapped (.first nofun) hwalk⟩
  unfold copyout
  change copyoutLoop 0x80301000 0x80300000 1 0 [1] oneMapped = _
  unfold copyoutLoop
  rw [if_neg (cons_ne_nil 1 []), bind_ok _ huva]
  rfl

end RainOS.Vm
