import RainOS.Fs.Spec

/-!
# The block allocator

`balloc` returns the first block whose bit is clear, wherever on the disk it lies. On a sound disk it
lies in the data region exactly if a data block is free, and then the block is new to every inode.
-/

namespace RainOS.Fs

open BlockStore Function List Bool

variable {sb : Superblock} {clean : Prop} {A : Table} {g : Ghost} {L T : Multiset Slot} {limit bi k n sector : Nat}
  {s : State} {d data : Block}

def Like (s s' : State) : Prop := ∃ held, s' = { s with held := held }

/-- The code has stopped without touching the inode cache and the histories. -/
def Stopped (s : State) (e : Halt) (s' : State) : Prop :=
  Tame e ∧ s'.icache = s.icache ∧ s'.iputs = s.iputs ∧ s'.ballocs = s.ballocs

theorem stopped_here {e : Halt} (h : Tame e) : Stopped s e s := ⟨h, rfl, rfl, rfl⟩

theorem bread_ends (s : State) (b : Nat) : Ends (bread b : M Buf) s
    (fun bp s' => bp = ⟨true, b, true, true, false, s.blk b⟩ ∧ s' = { s with held := b :: s.held })
    (fun e s' => Tame e ∧ s' = s ∧ b ∈ s.held) := by
  by_cases h : b ∈ s.held
  · exact .of_run_error ((bread_run s b).trans (if_pos h)) ⟨by decide, rfl, h⟩
  · exact .of_run_ok ((bread_run s b).trans (if_neg h)) ⟨rfl, rfl⟩

theorem brelse_held_run {bp : Buf} {held : List Nat} (h : s.held = bp.sector :: held) :
    (brelse bp : M Unit) s = .ok () { s with held := held } := by
  rw [brelse_run, h, if_neg (not_not.mpr mem_cons_self), erase_cons_head]

theorem readsb_ends (s : State) : Ends readsb s
    (fun sb' s' => s' = s ∧ sb' = getSuperblock (s.blk 1)) (fun e s' => Tame e ∧ s' = s ∧ 1 ∈ s.held) := by
  unfold readsb
  refine (bread_ends s 1).bind ?_
  rintro bp _ ⟨rfl, rfl⟩
  exact .after_ok (brelse_held_run rfl) (.pure ⟨rfl, rfl⟩)

theorem rewrite_ends (s : State) (b : Nat) (f : Block → Block) : Ends (do
      let bp ← bread b
      let bp ← logWrite { bp with data := f bp.data }
      brelse bp : M Unit) s (fun _ s' => s' = logged s b (f (s.blk b)))
    (fun e s' => Stopped s e s' ∧ (b ∈ s.held ∨ LogRefuses s.log 1 e)) := by
  refine ((bread_ends s b).stop ?_).bind ?_
  · rintro e _ ⟨he, rfl, hheld⟩
    exact ⟨stopped_here he, .inl hheld⟩
  rintro bp _ ⟨rfl, rfl⟩
  refine ((logWrite_ends _ _).stop ?_).bind ?_
  · rintro e _ ⟨he, rfl, hrefuses⟩
    exact ⟨⟨he, rfl, rfl, rfl⟩, .inr hrefuses⟩
  rintro bp' _ ⟨rfl, rfl⟩
  exact .of_run_ok (brelse_held_run rfl) rfl

theorem bzero_ends (s : State) (b : Nat) : Ends (bzero b) s (fun _ s' => s' = logged s b fun _ => 0)
    (fun e s' => Stopped s e s' ∧ (b ∈ s.held ∨ LogRefuses s.log 1 e)) := by
  unfold bzero
  exact rewrite_ends s b fun _ _ => 0

theorem findClear_some (h : findClear d limit = some bi) :
    bi < limit ∧ getBit d bi = false ∧ ∀ j < bi, getBit d j = true := by
  rw [findClear, find?_range_eq_some] at h
  obtain ⟨hbit, hmem, hbefore⟩ := h
  refine ⟨mem_range.mp hmem, by simpa using hbit, fun j hj => ?_⟩
  simpa using hbefore j hj

theorem findClear_none (h : findClear d limit = none) :
    ∀ j < limit, getBit d j = true := by
  rw [findClear, find?_range_eq_none] at h
  intro j hj
  simpa using h j hj

theorem bblock_chunk (ninodes k : Nat) (h : bi < bpb) :
    bblock (k * bpb + bi) ninodes = bblock (k * bpb) ninodes := by
  simp only [bblock, bpb, bsize] at h ⊢
  omega

theorem used_chunk (sb : Superblock) (blk : Nat → Block) (k : Nat) (h : bi < bpb) :
    used sb blk (k * bpb + bi) = getBit (blk (bblock (k * bpb) sb.ninodes)) bi := by
  rw [used, bblock_chunk sb.ninodes k h, Nat.mul_comm, Nat.mul_add_mod, Nat.mod_eq_of_lt h]

structure FirstFree (sb : Superblock) (blk : Nat → Block) (b : Nat) : Prop where
  lt : b < sb.size
  clear : used sb blk b = false
  first : ∀ b' < b, used sb blk b' = true

def marked (sb : Superblock) (s : State) (b : Nat) : State :=
  logged (logged s (bblock b sb.ninodes) (setBit (s.blk (bblock b sb.ninodes)) (b % bpb))) b fun _ => 0

def Scanned (sb : Superblock) (s : State) (found : Option Nat) (s' : State) : Prop :=
  match found with
  | some b => FirstFree sb s.blk b ∧ Like (marked sb s b) s'
  | none => (∀ b < sb.size, used sb s.blk b = true) ∧ Like s s'

def Busy (sb : Superblock) (s : State) : Prop := ∃ b ∈ s.held, b < sb.firstData ∨ used sb s.blk b = false

theorem LogRoom.mono {log : Log} (h : LogRoom log n) (hle : k ≤ n) : LogRoom log k := by
  obtain ⟨houtstanding, hheader, hregion⟩ := h
  exact ⟨houtstanding, by omega, by omega⟩

theorem LogRoom.of_logged (h : LogRoom s.log (k + 1)) :
    LogRoom (logged s sector data).log k := by
  obtain ⟨houtstanding, hheader, hregion⟩ := h
  have hlength : (logged s sector data).log.lh.length ≤ s.log.lh.length + 1 := by
    change (if sector ∉ s.log.lh then s.log.lh ++ [sector] else s.log.lh).length ≤ _
    split
    · rw [length_append, length_singleton]
    · omega
  refine ⟨houtstanding, by omega, ?_⟩
  change (logged s sector data).log.lh.length + k + 1 ≤ s.log.size
  omega

theorem ballocScan_ends (sb : Superblock) (s : State) (k m : Nat) (hend : sb.size ≤ (k + m) * bpb)
    (hstarts : ∀ j < m, (k + j) * bpb < sb.size)
    (hbefore : ∀ b < k * bpb, b < sb.size → used sb s.blk b = true) :
    Ends (ballocScan sb ((range' k m).map (· * bpb))) s
      (fun found s' => Scanned sb s found s' ∧ s'.held = s.held)
      (fun e s' => Stopped s e s' ∧ (Busy sb s ∨ LogRefuses s.log 2 e ∧ ∃ b, FirstFree sb s.blk b)) := by
  induction m generalizing k with
  | zero =>
    rw [Nat.add_zero] at hend
    exact .pure ⟨⟨fun b hb => hbefore b (hb.trans_le hend) hb, ⟨s.held, rfl⟩⟩, rfl⟩
  | succ m ih =>
    rw [range'_succ, map_cons, ballocScan]
    refine ((bread_ends s _).stop ?_).bind ?_
    · rintro e _ ⟨he, rfl, hheld⟩
      exact ⟨stopped_here he, .inl ⟨_, hheld, .inl (bblock_lt_firstData (hstarts 0 (Nat.succ_pos m)))⟩⟩
    rintro bp _ ⟨rfl, rfl⟩
    cases hfind : findClear (s.blk (bblock (k * bpb) sb.ninodes)) (min bpb (sb.size - k * bpb)) with
    | some bi =>
      obtain ⟨hlt, hclear, hfirst⟩ := findClear_some hfind
      have hbpb : bi < bpb := hlt.trans_le (Nat.min_le_left ..)
      have hsize : k * bpb + bi < sb.size := by omega
      have hmod : (k * bpb + bi) % bpb = bi := by
        rw [Nat.mul_comm, Nat.mul_add_mod, Nat.mod_eq_of_lt hbpb]
      have hmarked : marked sb s (k * bpb + bi) = logged (logged s (bblock (k * bpb) sb.ninodes)
          (setBit (s.blk (bblock (k * bpb) sb.ninodes)) bi)) (k * bpb + bi) fun _ => 0 := by
        rw [marked, bblock_chunk sb.ninodes k hbpb, hmod]
      have hfree : FirstFree sb s.blk (k * bpb + bi) := by
        refine ⟨hsize, by rwa [used_chunk sb s.blk k hbpb], fun b hb => ?_⟩
        by_cases hchunk : b < k * bpb
        · exact hbefore b hchunk (hb.trans hsize)
        · obtain ⟨j, rfl⟩ := Nat.exists_eq_add_of_le (Nat.le_of_not_lt hchunk)
          rw [used_chunk sb s.blk k (by omega)]
          exact hfirst j (by omega)
      refine ((logWrite_ends _ _).stop ?_).bind ?_
      · rintro e _ ⟨he, rfl, hshort, hpanic⟩
        exact ⟨⟨he, rfl, rfl, rfl⟩, .inr ⟨⟨fun hroom => hshort (hroom.mono (by decide)), hpanic⟩, _, hfree⟩⟩
      rintro bp' _ ⟨rfl, rfl⟩
      refine .after_ok (brelse_held_run rfl) ?_
      refine ((bzero_ends _ _).stop ?_).bind ?_
      · rintro e s' ⟨hstop, hcause⟩
        refine ⟨hstop, hcause.imp (fun hheld => ⟨_, hheld, .inr hfree.clear⟩) fun hrefuses => ?_⟩
        exact ⟨⟨fun hroom => hrefuses.short hroom.of_logged, hrefuses.panic⟩, _, hfree⟩
      rintro _ _ rfl
      exact .pure ⟨⟨hfree, s.held, by rw [hmarked]; rfl⟩, rfl⟩
    | none =>
      have hset := findClear_none hfind
      refine .after_ok (brelse_held_run rfl) ?_
      refine ih (k + 1) (by rwa [Nat.add_right_comm, Nat.add_assoc]) (fun j hj => ?_) fun b hb hsize => ?_
      · rw [Nat.add_right_comm, Nat.add_assoc]
        exact hstarts (j + 1) (Nat.succ_lt_succ hj)
      by_cases hchunk : b < k * bpb
      · exact hbefore b hchunk hsize
      · obtain ⟨j, rfl⟩ := Nat.exists_eq_add_of_le (Nat.le_of_not_lt hchunk)
        rw [Nat.add_mul, Nat.one_mul] at hb
        rw [used_chunk sb _ k (by omega)]
        exact hset j (by omega)

theorem Judged.append {calls : List BallocCall} {c : BallocCall} (h : Judged sb calls)
    (hc : (∀ c' ∈ calls, c'.Met sb) → (c.Right sb ↔ c.Met sb)) : Judged sb (calls ++ [c]) := by
  intro l₁ c' l₂ heq hmet
  obtain rfl | ⟨l₂, last, rfl⟩ := eq_nil_or_concat l₂
  · obtain ⟨rfl, hlast⟩ := append_inj' heq rfl
    rw [← head_eq_of_cons_eq hlast]
    exact hc hmet
  · rw [concat_eq_append, ← cons_append, ← append_assoc] at heq
    exact h l₁ c' l₂ (append_inj' heq rfl).1 hmet

section

variable {blk : Nat → Block} {b : Nat} (h : FirstFree sb blk b) (hdisk : DiskSound sb A blk)
include h hdisk

theorem FirstFree.above : sb.firstData ≤ b := by
  by_contra hlt
  have hused := hdisk.reserved b (by omega)
  rw [h.clear] at hused
  exact false_ne_true hused

theorem FirstFree.right_iff_met :
    BallocCall.Right sb ⟨blk, some b⟩ ↔ BallocCall.Met sb ⟨blk, some b⟩ := by
  constructor
  · intro hright
    exact .inl ⟨b, hright.2, h.clear⟩
  · intro hmet
    refine ⟨h.above hdisk, ?_⟩
    rcases hmet with ⟨b', hb', hclear⟩ | hfull
    · by_contra hlt
      have hused := h.first b' (by omega)
      rw [hclear] at hused
      exact false_ne_true hused
    · have hused := hfull b h.lt
      rw [h.clear] at hused
      exact absurd hused false_ne_true

end

theorem right_iff_met_of_full {blk : Nat → Block} (h : ∀ b < sb.size, used sb blk b = true) :
    BallocCall.Right sb ⟨blk, none⟩ ↔ BallocCall.Met sb ⟨blk, none⟩ := by
  refine iff_of_true ?_ (.inr h)
  intro b _ hb
  exact h b (hb.trans_le (Geometry.logStart_le sb))

theorem Sound.marked (hgeo : Geometry sb) (h : Sound sb A g L T s) {b : Nat}
    (hfree : FirstFree sb s.blk b) (hbelow : b < sb.logStart) :
    Sound sb A g L T (marked sb s b) ∧ Fresh sb A (marked sb s b).blk b ∧
      (marked sb s b).blk b = (fun _ => 0) ∧
      ∀ i n, Alloc sb A i → n < entryCount → entry A s.blk i n ≠ 0 →
        (marked sb s b).blk (entry A s.blk i n) = s.blk (entry A s.blk i n) := by
  have habove := hfree.above h.disk
  have hblock := bblock_lt_firstData hfree.lt
  have hbitmap := h.disk.setUsed hgeo hfree.lt
  have hentry := fun i n hi => h.disk.entry_update_of_lt (i := i) hi hblock
    (setBit (s.blk (bblock b sb.ninodes)) (b % bpb)) n
  have hunlisted : ∀ i n, Alloc sb A i → n < entryCount → entry A s.blk i n ≠ b := by
    intro i n hi hn heq
    have hone := one_lt_firstData sb
    have hused := (h.disk.inData i n hi hn (by omega)).2.2
    rw [heq, hfree.clear] at hused
    exact false_ne_true hused
  have hunlisted' : ∀ i n, Alloc sb A i → n < entryCount → entry A (update s.blk (bblock b sb.ninodes)
      (setBit (s.blk (bblock b sb.ninodes)) (b % bpb))) i n ≠ b := by
    intro i n hi hn
    rw [hentry i n hi]
    exact hunlisted i n hi hn
  have hdisk := hbitmap.update_unlisted hgeo habove hunlisted' fun _ => 0
  have hfirst := h.logged (by have hdata := hgeo.data; omega) hbitmap h.cache
  refine ⟨hfirst.logged hbelow hdisk h.cache, ⟨habove, hbelow, ?_, ?_⟩, update_self .., ?_⟩
  · rw [show (Fs.marked sb s b).blk = update (update s.blk (bblock b sb.ninodes)
      (setBit (s.blk (bblock b sb.ninodes)) (b % bpb))) b fun _ => 0 from rfl, used,
      update_of_ne (by omega)]
    change used sb (update s.blk _ _) b = true
    rw [DiskSound.used_setBit, decide_eq_true rfl, Bool.or_true]
  · intro i n hi hn
    have hne := hunlisted' i ndirect hi (by decide)
    rw [entry_ndirect] at hne
    rw [show (Fs.marked sb s b).blk = update (update s.blk (bblock b sb.ninodes)
      (setBit (s.blk (bblock b sb.ninodes)) (b % bpb))) b fun _ => 0 from rfl, entry_update_of_ne hne]
    exact hunlisted' i n hi hn
  · intro i n hi hn hne
    have hge := (h.disk.inData i n hi hn hne).1
    change update (update s.blk _ _) b _ (entry A s.blk i n) = _
    rw [update_of_ne (hunlisted i n hi hn), update_of_ne (by omega)]

def allocated (sb : Superblock) (s : State) (b : Nat) : State :=
  { marked sb s b with ballocs := s.ballocs ++ [⟨s.blk, some b⟩] }

/-- How `balloc` stops: a buffer is busy, the log refuses a block, or there is no block. -/
def BallocStops (sb : Superblock) (s : State) (e : Halt) (s' : State) : Prop :=
  Stopped s e s' ∧ (Busy sb s ∨ LogRefuses s.log 2 e ∧ ∃ b, FirstFree sb s.blk b) ∨
    (∀ b < sb.size, used sb s.blk b = true) ∧ e = .panic "balloc: out of blocks" ∧
      s' = { s with ballocs := s.ballocs ++ [⟨s.blk, none⟩] }

theorem balloc_ends (s : State) (hsuper : getSuperblock (s.blk 1) = sb) :
    Ends balloc s (fun b s' => FirstFree sb s.blk b ∧ s' = allocated sb s b) (BallocStops sb s) := by
  unfold balloc
  refine .after_ok (get_run s) ?_
  refine ((readsb_ends s).stop ?_).bind ?_
  · rintro e _ ⟨he, rfl, hheld⟩
    exact .inl ⟨stopped_here he, .inl ⟨1, hheld, .inl (one_lt_firstData sb)⟩⟩
  rintro sb' s' ⟨hsame, hsb⟩
  rw [hsame, hsb, hsuper]
  have hend : sb.size ≤ (0 + (sb.size + bpb - 1) / bpb) * bpb := by
    simp only [bpb, bsize]
    omega
  have hstarts : ∀ j < (sb.size + bpb - 1) / bpb, (0 + j) * bpb < sb.size := by
    simp only [bpb, bsize]
    omega
  have hscan := ballocScan_ends sb s 0 _ hend hstarts fun b hb => by omega
  rw [← range_eq_range'] at hscan
  refine (hscan.stop fun e s' h => .inl h).bind ?_
  rintro found s' ⟨hfound, hheld⟩
  refine .after_ok (modify_run s' _) ?_
  cases found with
  | none =>
    obtain ⟨hfull, held, rfl⟩ := hfound
    obtain rfl : held = s.held := hheld
    exact .throw (.inr ⟨hfull, rfl, rfl⟩)
  | some b =>
    obtain ⟨hfree, held, rfl⟩ := hfound
    obtain rfl : held = s.held := hheld
    exact .pure ⟨hfree, rfl⟩

/-- `balloc` on a sound state gives a fresh block, and leaves what the inodes have. -/
theorem balloc_spec (hgeo : Geometry sb) (D : Nat → Block) (C : Slot → Inode) :
    Spec sb clean (fun s => Sound sb A g L T s ∧ s.blk = D ∧ s.icache = C) balloc
      fun b s => Sound sb A g L T s ∧ s.icache = C ∧ Fresh sb A s.blk b ∧ s.blk b = (fun _ => 0) ∧
        ∀ i n, Alloc sb A i → n < entryCount → entry A D i n ≠ 0 →
          s.blk (entry A D i n) = D (entry A D i n) := by
  intro s hI hG
  -- the superblock that is read is the right one while the guard holds
  have hsb : Guard sb clean s → getSuperblock (s.blk 1) = sb := fun hg => (hG hg).1.disk.super
  have hjudged : ∀ found, (Guard sb clean s → (BallocCall.Right sb ⟨s.blk, found⟩ ↔
      BallocCall.Met sb ⟨s.blk, found⟩)) → clean → Judged sb (s.ballocs ++ [⟨s.blk, found⟩]) :=
    fun _ hfound hclean => (hI.judged hclean).append fun hmet => hfound ⟨hclean, hmet⟩
  refine (balloc_ends s rfl).mono ?_ ?_
  · rintro b _ ⟨hfree, rfl⟩
    refine ⟨⟨hI.flags, hI.iputs, hjudged (some b) fun hg => ?_⟩, fun hg => ?_⟩
    · rw [hsb hg] at hfree
      exact hfree.right_iff_met (hG hg).1.disk
    have hg' : Guard sb clean s := ⟨hg.1, fun c hc => hg.2 c (mem_append_left _ hc)⟩
    obtain ⟨hsound, rfl, rfl⟩ := hG hg'
    have hmet := hg.2 ⟨s.blk, some b⟩ (mem_append_right _ (mem_singleton_self _))
    rw [hsb hg'] at hfree ⊢
    have hright := (hfree.right_iff_met hsound.disk).mpr hmet
    obtain ⟨hmarked, hfresh, hclear, hkept⟩ := Sound.marked hgeo hsound hfree hright.2
    exact ⟨hg', hmarked, rfl, hfresh, hclear, hkept⟩
  · rintro e s' (⟨⟨he, hicache, hiputs, hballocs⟩, -⟩ | ⟨hfull, rfl, rfl⟩)
    · refine ⟨?_, he⟩
      rw [Always, hicache, hiputs, hballocs]
      exact hI
    · refine ⟨⟨hI.flags, hI.iputs, hjudged none fun hg => ?_⟩, by decide⟩
      rw [hsb hg] at hfull
      exact right_iff_met_of_full hfull

end RainOS.Fs
