import RainOS.Fs.Plan

/-!
# The reservation of a write

`filewrite` cuts a write into chunks, one transaction each, and `begin_op` reserves `MAXOPBLOCKS` sectors
of the log for each of them. A chunk logs what is planned for it: the loop of `writei` goes through the
blocks of the file, and each round logs its part. The size of the chunks leaves more sectors than are reserved.
-/

namespace RainOS.Fs

open BlockStore Function List

variable {sb : Superblock} {blk blk' : Nat → Block} {b k off n : Nat} {E : Halt → State → Prop}

/-! ### The progress of a chunk -/

/-- Blocks `done` of the file are written, and the file and the disk are otherwise as the plan found them. -/
structure Progress (sb : Superblock) (p : Plan) (ip : Slot) (e : Inode) (done : List Nat) (t : Nat) (ext : Bool)
    (data : Finset Nat) (i : Nat) (s : State) : Prop where
  stock : Stock sb (p.free.drop t) s.blk
  logs : Logs s.log (sectorsOf p sb t ext data i)
  tally : Tally p done t ext data i
  addr : (s.icache ip).addrs ndirect = i
  later : ∀ bn, bn ∉ done → bn < maxfile → blockAt (s.icache ip).toDinode s.blk bn = p.map bn
  kept : ∃ addrs, s.icache ip = { e with addrs := addrs }

/-- Blocks `done` of the file have been written. -/
def Written (sb : Superblock) (p : Plan) (ip : Slot) (e : Inode) (done : List Nat) (s : State) : Prop :=
  ∃ data i, Progress sb p ip e done (p.needs done) (decide (p.Extends done)) data i s

/-- How the round for block `bn` stops: the free blocks do not suffice, or the log is full. -/
def RoundStops (p : Plan) (sb : Superblock) (done : List Nat) (bn : Nat) (e : Halt) : Prop :=
  e = .panic "balloc: out of blocks" ∧ p.free.length < p.needs (done ++ [bn]) ∨
    e = .panic "too big a transaction" ∧ ∃ t ≤ p.needs (done ++ [bn]), t ≤ p.free.length ∧
      (t = p.free.length → t = p.needs (done ++ [bn])) ∧ logSize ≤ done.length + (p.bitmaps sb t).card + 3

def setAddr (s : State) (ip : Slot) (k b : Nat) : State :=
  { s with icache := update s.icache ip { s.icache ip with addrs := update (s.icache ip).addrs k b } }

theorem icache_setAddr (s : State) (ip : Slot) (k b : Nat) : (setAddr s ip k b).icache ip =
    { s.icache ip with addrs := update (s.icache ip).addrs k b } := update_self ..

theorem addrAt_old {s : State} {ip : Slot} (h : (s.icache ip).addrs k ≠ 0) :
    addrAt ip k s = .ok ((s.icache ip).addrs k) s := by
  unfold addrAt
  rw [bind_ok _ (show getInode ip s = .ok (s.icache ip) s from rfl), if_neg h]
  rfl

theorem addrAt_new {s : State} {ip : Slot} (h : (s.icache ip).addrs k = 0) {Q R : Nat → State → Prop} (hballoc : Ends balloc s Q E) (hR : ∀ b s', Q b s' → R b (setAddr s' ip k b)) :
    Ends (addrAt ip k) s R E := by
  unfold addrAt
  refine .after_ok (show getInode ip s = .ok (s.icache ip) s from rfl) ?_
  rw [if_pos h]
  refine hballoc.bind fun b s' hQ => ?_
  refine .after_ok (modifyInode_run _ _ s') (.pure ?_)
  simp only [store_eq_update]
  exact hR b s' hQ

theorem blockAt_congr {d d' : Dinode} {bn : Nat} (hdirect : bn < ndirect → d'.addrs bn = d.addrs bn)
    (hindirect : d'.addrs ndirect = d.addrs ndirect)
    (hblk : d.addrs ndirect ≠ 0 → ndirect ≤ bn → (blk' (d.addrs ndirect)).word 4 (4 * (bn - ndirect)) =
      (blk (d.addrs ndirect)).word 4 (4 * (bn - ndirect))) : blockAt d' blk' bn = blockAt d blk bn := by
  rw [blockAt, blockAt, hindirect]
  by_cases hlt : bn < ndirect
  · rw [if_pos hlt, if_pos hlt, hdirect hlt]
  · rw [if_neg hlt, if_neg hlt]
    by_cases hzero : d.addrs ndirect = 0
    · rw [if_pos hzero, if_pos hzero]
    · rw [if_neg hzero, if_neg hzero, hblk hzero (Nat.le_of_not_lt hlt)]

namespace Progress

variable {p : Plan} {ip : Slot} {e : Inode} {done : List Nat} {t bn i : Nat} {ext : Bool} {data : Finset Nat}
  {s : State}

section

variable (h : Progress sb p ip e done t ext data i s)
include h

theorem setHeld (held : List Nat) :
    Progress sb p ip e done t ext data i { s with held := held } :=
  ⟨h.stock, h.logs, h.tally, h.addr, h.later, h.kept⟩

/-- `balloc` in the round for block `bn`, which needs more blocks than have been taken. -/
theorem ballocRound (hp : p.Sound sb) (hheld : ∀ x ∈ s.held, x = i ∧ i ≠ 0)
    (bn : Nat) (hneeds : t < p.needs (done ++ [bn])) :
    Ends balloc s (fun b s' => p.free.drop t = b :: p.free.drop (t + 1) ∧ s' = allocated sb s b ∧
        Stock sb (p.free.drop (t + 1)) s'.blk)
      (fun e' _ => RoundStops p sb done bn e') := by
  have hmem : ∀ {b}, FirstFree sb s.blk b → b ∈ p.free.drop t := fun hb =>
    h.stock.free ▸ mem_freeBlocks.mpr ⟨hb.lt, hb.clear⟩
  refine (balloc_ends s h.stock.super).mono ?_ ?_
  · rintro b _ ⟨hfirst, rfl⟩
    have hge := (hp.free b (mem_of_mem_drop (hmem hfirst))).1
    obtain ⟨hcons, hstock⟩ := h.stock.allocated hfirst hge
    rw [tail_drop] at hcons hstock
    exact ⟨hcons, rfl, hstock⟩
  · rintro e' s' (⟨-, ⟨x, hx, hbusy⟩ | ⟨hrefuses, b, hfirst⟩⟩ | ⟨hfull, rfl, -⟩)
    · obtain ⟨rfl, hi⟩ := hheld x hx
      obtain ⟨hge, hlt, hfree⟩ := h.tally.indirect_used hp hi
      rcases hbusy with hbusy | hclear
      · omega
      · rw [h.stock.used_eq hlt hfree] at hclear
        cases hclear
    · obtain ⟨he', hcard⟩ := h.logs.refused hrefuses
      have hle := h.tally.card_sectorsOf_le sb
      obtain ⟨x, rest, hcons⟩ := exists_cons_of_ne_nil (ne_nil_of_mem (hmem hfirst))
      have hlt := Tally.lt_length hcons
      exact .inr ⟨he', t, hneeds.le, hlt.le, fun heq => by omega, by omega⟩
    · have hnil : p.free.drop t = [] := by
        rw [← h.stock.free, eq_nil_iff_forall_not_mem]
        intro b hb
        obtain ⟨hlt, hclear⟩ := mem_freeBlocks.mp hb
        rw [hfull b hlt] at hclear
        cases hclear
      exact .inl ⟨rfl, (drop_eq_nil_iff.mp hnil).trans_lt hneeds⟩

theorem old (hp : p.Sound sb) (hbn : bn < maxfile) (hnew : bn ∉ done) (hmap : p.map bn ≠ 0) (d : Block) :
    Progress sb p ip e (done ++ [bn]) t ext (insert (p.map bn) data) i (logged s (p.map bn) d) := by
  obtain ⟨htally, hne⟩ := h.tally.old hp hbn hnew hmap
  refine ⟨h.stock.update_data (hp.mapped bn hbn hmap).1 d, ?_, htally, h.addr, fun bn' hbn' hlt => ?_, h.kept⟩
  · rw [sectorsOf, Finset.insert_union, Finset.insert_union]
    exact h.logs.logged _ d
  · rw [mem_append, not_or] at hbn'
    rw [← h.later bn' hbn'.1 hlt]
    refine blockAt_congr (fun _ => rfl) rfl fun _ _ => ?_
    change (update s.blk (p.map bn) d _).word _ _ = _
    rw [update_of_ne (by rw [h.addr]; exact hne.symm)]

theorem direct (hp : p.Sound sb) (hlt : bn < ndirect)
    (hdrop : p.free.drop t = b :: p.free.drop (t + 1)) (hstock : Stock sb (p.free.drop (t + 1)) (allocated sb s b).blk)
    (d : Block) : Progress sb p ip e (done ++ [bn]) (t + 1) ext (insert b data) i
      (logged (setAddr (allocated sb s b) ip bn b) b d) := by
  obtain ⟨hge, hsize⟩ := hp.free b (Tally.fresh hp hdrop).1
  obtain ⟨htally, hne⟩ := h.tally.new hp (hlt.trans (by decide)) hdrop
  have hicache : (logged (setAddr (allocated sb s b) ip bn b) b d).icache ip =
      { s.icache ip with addrs := update (s.icache ip).addrs bn b } := icache_setAddr ..
  have haddrs : ((logged (setAddr (allocated sb s b) ip bn b) b d).icache ip).addrs =
      update (s.icache ip).addrs bn b := by rw [hicache]
  refine ⟨hstock.update_data hge d, ?_, htally, ?_, fun bn' hbn' hmax => ?_, ?_⟩
  · refine ⟨h.logs.outstanding, h.logs.region, ((h.logs.allocated sb b).logged b d).nodup, ?_⟩
    refine ((h.logs.allocated sb b).logged b d).sectors.trans ?_
    rw [Finset.insert_idem, sectorsOf, sectorsOf, Plan.bitmaps_succ hdrop]
    simp only [Finset.insert_union, Finset.union_insert]
    exact Finset.insert_comm ..
  · rw [haddrs, update_of_ne (by omega), h.addr]
  · rw [mem_append, mem_singleton, not_or] at hbn'
    rw [← h.later bn' hbn'.1 hmax]
    refine blockAt_congr (fun _ => ?_) ?_ fun hi _ => ?_
    · rw [haddrs, update_of_ne hbn'.2]
    · rw [haddrs, update_of_ne (by omega)]
    · rw [h.addr] at hi ⊢
      obtain ⟨hge', -, -⟩ := h.tally.indirect_used hp hi
      change (update (allocated sb s b).blk b d i).word _ _ = _
      rw [update_of_ne hne.symm, blk_allocated hsize hge' hne.symm]
  · obtain ⟨addrs, heq⟩ := h.kept
    exact ⟨update addrs bn b, by rw [hicache, heq]⟩

end

theorem newIndirect (h : Progress sb p ip e done t ext data 0 s) (hp : p.Sound sb)
    (hdrop : p.free.drop t = b :: p.free.drop (t + 1))
    (hstock : Stock sb (p.free.drop (t + 1)) (allocated sb s b).blk) :
    Progress sb p ip e done (t + 1) true data b (setAddr (allocated sb s b) ip ndirect b) ∧ ext = false ∧
      p.indirect = 0 := by
  obtain ⟨hge, hsize⟩ := hp.free b (Tally.fresh hp hdrop).1
  obtain ⟨htally, hext, hnone⟩ := h.tally.newIndirect hp hdrop
  have hb : b ≠ 0 := by
    have hone := one_lt_firstData sb
    omega
  have hicache : (setAddr (allocated sb s b) ip ndirect b).icache ip =
      { s.icache ip with addrs := update (s.icache ip).addrs ndirect b } := icache_setAddr ..
  have haddrs : ((setAddr (allocated sb s b) ip ndirect b).icache ip).addrs =
      update (s.icache ip).addrs ndirect b := by rw [hicache]
  refine ⟨⟨hstock, ?_, htally, ?_, fun bn' hbn' hmax => ?_, ?_⟩, hext, hnone⟩
  · refine ⟨h.logs.outstanding, h.logs.region, (h.logs.allocated sb b).nodup, ?_⟩
    refine (h.logs.allocated sb b).sectors.trans ?_
    rw [hext, sectorsOf, sectorsOf, Plan.bitmaps_succ hdrop, if_neg Bool.false_ne_true, if_pos rfl,
      Finset.union_empty, Finset.union_insert, Finset.union_comm _ {b}]
    rfl
  · rw [haddrs, update_self]
  · rw [blockAt, haddrs, update_self, if_neg hb]
    split
    · rename_i hlt
      rw [update_of_ne hlt.ne, ← h.later bn' hbn' hmax, blockAt, if_pos hlt]
    · rename_i hge'
      rw [show (setAddr (allocated sb s b) ip ndirect b).blk b = fun _ => 0 from update_self .., word_zero,
        hp.flat hnone bn' (Nat.le_of_not_lt hge')]
  · obtain ⟨addrs, heq⟩ := h.kept
    exact ⟨update addrs ndirect b, by rw [hicache, heq]⟩

theorem entry (h : Progress sb p ip e done t ext data i s) (hp : p.Sound sb) (hi : i ≠ 0) (hge : ndirect ≤ bn)
    (hbn : bn < maxfile) (hdrop : p.free.drop t = b :: p.free.drop (t + 1))
    (hstock : Stock sb (p.free.drop (t + 1)) (allocated sb s b).blk) (d : Block) :
    Progress sb p ip e (done ++ [bn]) (t + 1) true (insert b data) i
      (logged (logged (allocated sb s b) i ((s.blk i).setWord 4 (4 * (bn - ndirect)) b)) b d) := by
  obtain ⟨hge', hsize⟩ := hp.free b (Tally.fresh hp hdrop).1
  obtain ⟨htally, hne⟩ := h.tally.new hp hbn hdrop
  obtain ⟨habove, -, -⟩ := h.tally.indirect_used hp hi
  refine ⟨(hstock.update_data habove _).update_data hge' d, ?_, htally.extended hi, h.addr, fun bn' hbn' hmax => ?_,
    h.kept⟩
  · have hlogs := ((h.logs.allocated sb b).logged i ((s.blk i).setWord 4 (4 * (bn - ndirect)) b)).logged b d
    refine ⟨h.logs.outstanding, h.logs.region, hlogs.nodup, hlogs.sectors.trans ?_⟩
    rw [sectorsOf, sectorsOf, Plan.bitmaps_succ hdrop, if_pos rfl]
    cases ext with
    | true => grind
    | false => grind
  · rw [mem_append, mem_singleton, not_or] at hbn'
    rw [← h.later bn' hbn'.1 hmax]
    refine blockAt_congr (fun _ => rfl) rfl fun _ hge'' => ?_
    rw [show (s.icache ip).toDinode.addrs ndirect = i from h.addr]
    change Bytes.word (update (update (allocated sb s b).blk i ((s.blk i).setWord 4 (4 * (bn - ndirect)) b)) b d i)
      _ _ = _
    rw [update_of_ne hne.symm, update_self, Bytes.word_setWord_of_disjoint]
    omega

theorem refused {log : Log} {e' : Halt} (h : Progress sb p ip e (done ++ [bn]) (p.needs (done ++ [bn])) ext data i s)
    (hlength : log.lh.length ≤ s.log.lh.length) (hsame : log.outstanding = s.log.outstanding ∧ log.size = s.log.size)
    (hrefuses : LogRefuses log 1 e') : RoundStops p sb done bn e' := by
  have hcard := h.tally.card_sectorsOf_le sb
  have hregion := h.logs.region
  have houtstanding : 1 ≤ log.outstanding := hsame.1 ▸ h.logs.outstanding
  rw [← h.logs.length_eq, length_append, length_singleton] at hcard
  refine .inr ⟨hrefuses.panic houtstanding, _, le_rfl, h.tally.taken, fun _ => rfl, ?_⟩
  by_contra hlt
  exact hrefuses.short ⟨houtstanding, by omega, by omega⟩

section

variable (h : Progress sb p ip e done (p.needs done) (decide (p.Extends done)) data i s) (hp : p.Sound sb)
  (hheld : s.held = [])
include h hp hheld

theorem bmapDirect (hlt : bn < ndirect) (hnew : bn ∉ done) :
    Ends (addrAt ip bn) s (fun a s' => s'.held = [] ∧ ∀ d, Written sb p ip e (done ++ [bn]) (logged s' a d))
      (fun e' _ => RoundStops p sb done bn e') := by
  have hbn : bn < maxfile := hlt.trans (by decide)
  have haddr : (s.icache ip).addrs bn = p.map bn := by rw [← h.later bn hnew hbn, blockAt, if_pos hlt]
  have hext : decide (p.Extends (done ++ [bn])) = decide (p.Extends done) :=
    decide_eq_decide.mpr (Plan.extends_direct hlt)
  by_cases hmap : p.map bn = 0
  · have hneeds : p.needs (done ++ [bn]) = p.needs done + 1 := Plan.needs_direct hmap hlt
    refine addrAt_new (haddr.trans hmap) (h.ballocRound hp (by simp [hheld]) bn (by omega)) ?_
    rintro b _ ⟨hdrop, rfl, hstock⟩
    refine ⟨hheld, fun d => ?_⟩
    have hdirect := h.direct hp hlt hdrop hstock d
    rw [← hneeds, ← hext] at hdirect
    exact ⟨_, _, hdirect⟩
  · refine .of_run_ok (addrAt_old (haddr ▸ hmap)) ⟨hheld, fun d => ?_⟩
    have hold := h.old hp hbn hnew hmap d
    rw [← Plan.needs_mapped hmap, ← hext, ← haddr] at hold
    exact ⟨_, _, hold⟩

theorem bmapIndirect (hge : ndirect ≤ bn) :
    Ends (addrAt ip ndirect) s
      (fun a s' => s'.held = [] ∧ a ≠ 0 ∧ ∃ t ext, Progress sb p ip e done t ext data a s' ∧
        (p.map bn = 0 → p.needs (done ++ [bn]) = t + 1) ∧
        (p.map bn ≠ 0 → t = p.needs done ∧ ext = decide (p.Extends done)))
      (fun e' _ => RoundStops p sb done bn e') := by
  by_cases hi : i = 0
  · subst hi
    have hmap : p.indirect = 0 → p.map bn = 0 := fun hnone => hp.flat hnone bn hge
    have hold : p.indirect = 0 ∧ ¬ p.Extends done := by
      rcases h.tally.indirect with ⟨hnone, hext⟩ | ⟨-, hmem, -⟩
      · exact ⟨hnone.symm, fun hext' => hext (decide_eq_true hext') rfl⟩
      · have hone := one_lt_firstData sb
        have habove := (hp.free 0 (mem_of_mem_take hmem)).1
        omega
    have hneeds : p.needs (done ++ [bn]) = p.needs done + 1 + 1 := by
      rw [Plan.needs_indirect (hmap hold.1) hge, if_pos hold]
    refine addrAt_new h.addr (h.ballocRound hp (by simp [hheld]) bn (by omega)) ?_
    rintro b _ ⟨hdrop, rfl, hstock⟩
    have hb : b ≠ 0 := by
      have hone := one_lt_firstData sb
      have habove := (hp.free b (Tally.fresh hp hdrop).1).1
      omega
    exact ⟨hheld, hb, _, _, (h.newIndirect hp hdrop hstock).1, fun _ => hneeds, fun hne => absurd (hmap hold.1) hne⟩
  · have hold : ¬ (p.indirect = 0 ∧ ¬ p.Extends done) := by
      rintro ⟨hnone, hext⟩
      rcases h.tally.indirect with ⟨heq, -⟩ | ⟨-, -, hext'⟩
      · exact hi (heq.trans hnone)
      · exact hext (of_decide_eq_true hext')
    refine .of_run_ok (addrAt_old (h.addr ▸ hi))
      ⟨hheld, h.addr ▸ hi, _, _, h.addr ▸ h, fun hmap => ?_, fun _ => ⟨rfl, rfl⟩⟩
    rw [Plan.needs_indirect hmap hge, if_neg hold]

end

theorem bmapEntry (h : Progress sb p ip e done t ext data i s) (hp : p.Sound sb) (hheld : s.held = []) (hi : i ≠ 0)
    (hge : ndirect ≤ bn) (hbn : bn < maxfile) (hnew : bn ∉ done)
    (hnone : p.map bn = 0 → p.needs (done ++ [bn]) = t + 1)
    (hsome : p.map bn ≠ 0 → t = p.needs done ∧ ext = decide (p.Extends done)) :
    Ends (do
      let bp ← bread i
      let a := bp.data.word 4 (4 * (bn - ndirect))
      if a = 0 then
        let addr ← balloc
        let bp ← logWrite { bp with data := bp.data.setWord 4 (4 * (bn - ndirect)) addr }
        brelse bp
        return addr
      else
        brelse bp
        return a : M Nat) s
      (fun a s' => s'.held = [] ∧ ∀ d, Written sb p ip e (done ++ [bn]) (logged s' a d))
      (fun e' _ => RoundStops p sb done bn e') := by
  have hword : (s.blk i).word 4 (4 * (bn - ndirect)) = p.map bn := by
    rw [← h.later bn hnew hbn, blockAt, if_neg (Nat.not_lt.mpr hge), h.addr, if_neg hi]
  have hread : (bread i : M Buf) s = .ok ⟨true, i, true, true, false, s.blk i⟩ { s with held := [i] } := by
    rw [bread_run, hheld, if_neg not_mem_nil]
  refine .after_ok hread ?_
  dsimp only
  rw [hword]
  by_cases hmap : p.map bn = 0
  · rw [if_pos hmap]
    have hneeds := hnone hmap
    have hext : decide (p.Extends (done ++ [bn])) = true :=
      decide_eq_true (Plan.extends_append.mpr (.inr ⟨hge, hmap⟩))
    refine ((h.setHeld [i]).ballocRound hp (by simp [hi]) bn (by omega)).bind ?_
    rintro b _ ⟨hdrop, rfl, hstock⟩
    have hentry := fun d => hneeds ▸ h.entry hp hi hge hbn hdrop hstock d
    refine ((logWrite_ends _ _).stop ?_).bind ?_
    · rintro e' _ ⟨-, -, hrefuses⟩
      exact (hentry fun _ => 0).refused ((length_le_logged _ _ _).trans (length_le_logged _ _ _)) ⟨rfl, rfl⟩ hrefuses
    rintro bp' _ ⟨rfl, rfl⟩
    refine .after_ok (brelse_held_run rfl) (.pure ⟨rfl, fun d => ⟨insert b data, i, ?_⟩⟩)
    rw [hext]
    exact (hentry d).setHeld []
  · rw [if_neg hmap]
    obtain ⟨rfl, rfl⟩ := hsome hmap
    refine .after_ok (brelse_held_run rfl) (.pure ⟨rfl, fun d => ?_⟩)
    have hold := (h.setHeld []).old hp hbn hnew hmap d
    rw [← Plan.needs_mapped hmap, ← decide_eq_decide.mpr (Plan.extends_mapped hmap)] at hold
    exact ⟨_, _, hold⟩

theorem bmap (h : Progress sb p ip e done (p.needs done) (decide (p.Extends done)) data i s) (hp : p.Sound sb)
    (hheld : s.held = []) (hbn : bn < maxfile) (hnew : bn ∉ done) :
    Ends (bmap ip bn) s (fun a s' => s'.held = [] ∧ ∀ d, Written sb p ip e (done ++ [bn]) (logged s' a d))
      (fun e' _ => RoundStops p sb done bn e') := by
  unfold Fs.bmap
  refine .ite (fun hlt => h.bmapDirect hp hheld hlt hnew) fun hlt => ?_
  rw [if_pos (by rw [maxfile] at hbn; omega)]
  have hge := Nat.le_of_not_lt hlt
  refine (h.bmapIndirect hp hheld hge).bind ?_
  rintro a s' ⟨hheld', ha, t, ext, h', hnone, hsome⟩
  exact h'.bmapEntry hp hheld' ha hge hbn hnew hnone hsome

end Progress

/-! ### The chunk -/

theorem spanned_zero (off : Nat) : spanned off 0 = [] := by
  rw [spanned, if_pos rfl, range'_zero]

theorem spanned_cons (hn : n ≠ 0) : spanned off n =
    off / bsize :: spanned (off + min n (bsize - off % bsize)) (n - min n (bsize - off % bsize)) := by
  have hbsize : bsize = 512 := rfl
  have hcount : (off + n - 1) / bsize + 1 - off / bsize = (off + n - 1) / bsize - off / bsize + 1 := by
    rw [hbsize]
    omega
  rw [spanned, if_neg hn, hcount, range'_succ, spanned]
  by_cases hlast : n ≤ bsize - off % bsize
  · rw [Nat.min_eq_left hlast, Nat.sub_self, if_pos rfl, show (off + n - 1) / bsize - off / bsize = 0 by
      rw [hbsize] at hlast ⊢; omega]
    rfl
  · rw [Nat.min_eq_right (Nat.le_of_not_le hlast), if_neg (by omega)]
    congr 1
    congr 1
    · rw [hbsize]
      omega
    · rw [hbsize] at hlast ⊢
      omega

theorem nodup_spanned (off n : Nat) : (spanned off n).Nodup := nodup_range'

/-- How a chunk stops: the free blocks do not suffice, or it does not fit the log. -/
def ChunkStops (p : Plan) (sb : Superblock) (bns : List Nat) (grows : Bool) (e : Halt) : Prop :=
  e = .panic "balloc: out of blocks" ∧ p.free.length < p.needs bns ∨
    e = .panic "too big a transaction" ∧ p.needs bns ≤ p.free.length ∧ maxOpBlocks < p.cost sb bns grows

theorem RoundStops.chunk {p : Plan} {done rest : List Nat} {bn : Nat} {e : Halt} (h : RoundStops p sb done bn e)
    (hshort : (done ++ bn :: rest).length ≤ 14) (grows : Bool) : ChunkStops p sb (done ++ bn :: rest) grows e := by
  have hmono := p.needs_le_append (done ++ [bn]) rest
  rw [← append_cons] at hmono
  rcases h with ⟨rfl, hlt⟩ | ⟨rfl, t, hneeds, hfree, hlast, hfull⟩
  · exact .inl ⟨rfl, hlt.trans_le hmono⟩
  have hcard := p.card_bitmaps_le sb t
  have hle := p.needs_le (done ++ bn :: rest)
  have hsize : logSize = 30 := rfl
  have hops : maxOpBlocks = 10 := rfl
  have hlength : (done ++ bn :: rest).length = done.length + 1 + rest.length := by
    rw [length_append, length_cons]
    omega
  refine .inr ⟨rfl, ?_, ?_⟩
  · by_cases hmore : t = p.free.length
    · cases rest with
      | nil => rw [← hlast hmore, hmore]
      | cons x rest =>
        rw [length_cons] at hlength
        omega
    · omega
  · have hbitmaps := Finset.card_le_card (p.bitmaps_mono sb (hneeds.trans hmono))
    rw [Plan.cost]
    omega

section Writei

variable {p : Plan} {ip : Slot} {e : Inode} {bns : List Nat} {s : State}

theorem writeFrom_ends (hp : p.Sound sb) (hnodup : bns.Nodup) (hshort : bns.length ≤ 14) (grows : Bool) (fuel off : Nat)
    (src : List UInt8) (done : List Nat) (hfuel : src.length ≤ fuel) (hspan : done ++ spanned off src.length = bns)
    (hmax : off + src.length ≤ maxfile * bsize) (h : Written sb p ip e done s) (hheld : s.held = []) :
    Ends (writeFrom ip fuel off src) s (fun _ s' => s'.held = [] ∧ Written sb p ip e bns s')
      (fun e' _ => ChunkStops p sb bns grows e') := by
  induction fuel generalizing off src done s with
  | zero =>
    rw [Nat.le_zero.mp hfuel, spanned_zero, append_nil] at hspan
    exact .pure ⟨hheld, hspan ▸ h⟩
  | succ fuel ih =>
    rw [writeFrom]
    by_cases hsrc : src = []
    · rw [hsrc, length_nil, spanned_zero, append_nil] at hspan
      rw [if_pos hsrc]
      exact .pure ⟨hheld, hspan ▸ h⟩
    rw [if_neg hsrc]
    have hpos := length_pos_of_ne_nil hsrc
    have hmin : min src.length (bsize - off % bsize) ≠ 0 := by
      simp only [bsize]
      omega
    rw [spanned_cons hpos.ne'] at hspan
    have hnew : off / bsize ∉ done := fun hmem =>
      (nodup_append.mp (hspan ▸ hnodup)).2.2 _ hmem _ mem_cons_self rfl
    have hbn : off / bsize < maxfile := Nat.div_lt_of_lt_mul (by rw [Nat.mul_comm]; omega)
    have hstops : ∀ e', RoundStops p sb done (off / bsize) e' → ChunkStops p sb bns grows e' := by
      intro e' hround
      subst hspan
      exact hround.chunk hshort grows
    obtain ⟨data, i, hprogress⟩ := h
    refine ((hprogress.bmap hp hheld hbn hnew).stop fun e' _ => hstops e').bind ?_
    rintro a s' ⟨hheld', hwritten⟩
    have hread : (bread a : M Buf) s' = .ok ⟨true, a, true, true, false, s'.blk a⟩ { s' with held := [a] } := by
      rw [bread_run, hheld', if_neg not_mem_nil]
    refine .after_ok hread ?_
    refine ((logWrite_ends _ _).stop ?_).bind ?_
    · rintro e' _ ⟨-, -, hrefuses⟩
      obtain ⟨data', i', hprogress'⟩ := hwritten fun _ => 0
      exact hstops e' (hprogress'.refused (length_le_logged ..) ⟨rfl, rfl⟩ hrefuses)
    rintro bp' _ ⟨rfl, rfl⟩
    refine .after_ok (brelse_held_run rfl) ?_
    refine ih _ _ (done ++ [off / bsize]) ?_ ?_ ?_ ?_ rfl
    · rw [length_drop]
      omega
    · rw [length_drop, ← hspan, ← append_cons]
    · rw [length_drop]
      omega
    · obtain ⟨data', i', hprogress'⟩ := hwritten _
      exact ⟨data', i', hprogress'.setHeld []⟩

/-- `writei` writes the bytes: the offset is not past the end, and the file does not get too large. -/
def Accepts (size off n : Nat) : Prop := off ≤ size ∧ off + n ≤ maxfile * bsize

instance (size off n : Nat) : Decidable (Accepts size off n) :=
  inferInstanceAs (Decidable (off ≤ size ∧ off + n ≤ maxfile * bsize))

theorem Written.length_eq (h : Written sb p ip e bns s) (hp : p.Sound sb) : p.needs bns ≤ p.free.length ∧
    s.log.lh.length = p.cost sb bns false := by
  obtain ⟨data, i, h⟩ := h
  refine ⟨h.tally.taken, ?_⟩
  rw [h.logs.length_eq, h.tally.card_sectorsOf hp, Plan.cost, if_neg Bool.false_ne_true, Nat.add_zero]
  simp only [decide_eq_true_eq]

def Outcome (p : Plan) (sb : Superblock) (size off n : Nat) (s : State) : Prop :=
  if Accepts size off n then p.needs (spanned off n) ≤ p.free.length ∧
    s.log.lh.length = p.cost sb (spanned off n) (decide (size < off + n))
  else s.log.lh.length = 0

theorem length_spanned (off : Nat) (h : n ≤ writeMax) : (spanned off n).length ≤ 14 := by
  have hmax : writeMax = 6656 := rfl
  rw [spanned, length_range']
  split
  · exact Nat.zero_le _
  · simp only [bsize]
    omega

theorem cost_nil (p : Plan) (sb : Superblock) : p.cost sb [] false = 0 := by
  have hext : ¬ p.Extends [] := fun ⟨_, hmem, _⟩ => not_mem_nil hmem
  rw [Plan.cost, Plan.needs, if_neg hext, if_neg fun hnew => hext hnew.2]
  rfl

theorem Logs.iupdate {sectors : Finset Nat} (h : Logs s.log sectors) (hheld : s.held = [])
    (hnew : iblock (s.icache ip).inum ∉ sectors) :
    Ends (iupdate ip) s (fun _ s' => s'.log.lh.length = sectors.card + 1 ∧ s'.icache = s.icache)
      (fun e' _ => e' = .panic "too big a transaction" ∧ logSize ≤ sectors.card + 1) := by
  refine (iupdate_ends s ip).mono ?_ ?_
  · rintro _ _ rfl
    rw [(h.logged _ _).length_eq, Finset.card_insert_of_notMem hnew]
    exact ⟨rfl, rfl⟩
  · rintro e' _ ⟨-, hbusy | hrefuses⟩
    · rw [hheld] at hbusy
      exact absurd hbusy not_mem_nil
    · exact h.refused hrefuses

def setSize (s : State) (ip : Slot) (size : Nat) : State :=
  { s with icache := update s.icache ip { s.icache ip with size := size } }

theorem Written.grow (h : Written sb p ip e bns s) (hp : p.Sound sb) (hinum : e.inum < sb.ninodes) (hheld : s.held = [])
    (size : Nat) :
    Ends (do modifyInode ip fun e => { e with size := size }; iupdate ip : M Unit) s
      (fun _ s' => s'.log.lh.length = p.cost sb bns true ∧
        ∃ addrs, s'.icache ip = { e with size := size, addrs := addrs })
      (fun e' _ => ChunkStops p sb bns true e') := by
  obtain ⟨data, i, h⟩ := h
  obtain ⟨addrs, hicache⟩ := h.kept
  have hcount : (sectorsOf p sb (p.needs bns) (decide (p.Extends bns)) data i).card + 1 = p.cost sb bns true := by
    rw [h.tally.card_sectorsOf hp, Plan.cost, if_pos rfl]
    simp only [decide_eq_true_eq]
  have hinode : (setSize s ip size).icache ip = { e with size := size, addrs := addrs } :=
    (update_self ..).trans (by rw [hicache])
  have hlogs : Logs (setSize s ip size).log (sectorsOf p sb (p.needs bns) (decide (p.Extends bns)) data i) := h.logs
  have hset : modifyInode ip (fun e => { e with size := size }) s = .ok () (setSize s ip size) := modifyInode_run ip _ s
  refine .after_ok hset ((hlogs.iupdate hheld ?_).mono ?_ ?_)
  · rw [hinode]
    exact h.tally.iblock_notMem hp hinum
  · rintro _ s' ⟨hlength, hsame⟩
    exact ⟨hlength.trans hcount, addrs, by rw [hsame, hinode]⟩
  · rintro e' _ ⟨he', hcard⟩
    have hsize : logSize = 30 := rfl
    have hops : maxOpBlocks = 10 := rfl
    exact .inr ⟨he', h.tally.taken, by omega⟩

theorem writei_ends (hp : p.Sound sb) (h : Written sb p ip e [] s) (he : s.icache ip = e) (htype : e.type ≠ tDev)
    (hinum : e.inum < sb.ninodes) (hsize : e.size < 2 ^ 32) (hheld : s.held = []) {src : List UInt8}
    (hsrc : src.length ≤ writeMax) (off : Nat) :
    Ends (writei ip src off) s
      (fun _ s' => Outcome p sb e.size off src.length s' ∧
        ∃ size addrs, s'.icache ip = { e with size := size, addrs := addrs })
      (fun e' _ => Accepts e.size off src.length ∧
        ChunkStops p sb (spanned off src.length) (decide (e.size < off + src.length)) e') := by
  have hmax : writeMax = 6656 := rfl
  have hfile : maxfile * bsize = 71680 := rfl
  unfold writei
  refine .after_ok (show getInode ip s = .ok (s.icache ip) s from rfl) ?_
  rw [he, if_neg htype]
  by_cases hacc : Accepts e.size off src.length
  · obtain ⟨hoff, hend⟩ := id hacc
    have hmod : (off + src.length) % 2 ^ 32 = off + src.length := Nat.mod_eq_of_lt (by omega)
    rw [hmod, if_neg (by omega), if_neg (by omega)]
    refine ((writeFrom_ends hp (nodup_spanned off src.length) (length_spanned off hsrc)
      (decide (e.size < off + src.length)) src.length off src [] le_rfl rfl hend h hheld).stop fun e' _ hstops => ⟨hacc, hstops⟩).bind ?_
    rintro _ s' ⟨hheld', hwritten⟩
    obtain ⟨hneeds, hlength⟩ := hwritten.length_eq hp
    simp only [Outcome, if_pos hacc]
    by_cases hgrows : e.size < off + src.length
    · rw [if_pos ⟨by omega, hgrows⟩, decide_eq_true hgrows]
      have hgrow := (hwritten.grow hp hinum hheld' (off + src.length)).stop fun e' _ hstops => (⟨hacc, hstops⟩ : Accepts e.size off src.length ∧ _)
      rw [← bind_assoc]
      refine hgrow.bind ?_
      rintro _ s'' ⟨hlength', addrs, hicache⟩
      exact .pure ⟨⟨hneeds, hlength'⟩, _, addrs, hicache⟩
    · rw [if_neg fun hcond => hgrows hcond.2, decide_eq_false hgrows]
      obtain ⟨_, _, hprogress⟩ := hwritten
      obtain ⟨addrs, hicache⟩ := hprogress.kept
      exact .pure ⟨⟨hneeds, hlength⟩, e.size, addrs, hicache⟩
  · have hnone : Outcome p sb e.size off src.length s := by
      rw [Outcome, if_neg hacc, (h.length_eq hp).2, cost_nil]
    have hsame : ∃ size addrs, s.icache ip = { e with size := size, addrs := addrs } := ⟨e.size, e.addrs, he⟩
    split
    · exact .pure ⟨hnone, hsame⟩
    · rename_i hin
      rw [if_pos ?_]
      · exact .pure ⟨hnone, hsame⟩
      · rw [Accepts] at hacc
        omega

end Writei

/-! ### The transaction -/

/-- What `filewrite` does for one chunk from `begin_op` to `end_op`. -/
def chunk (f : Fin nfile) (ip : Slot) (src : List UInt8) : M (Option Nat) := do
  beginOp
  ilock ip
  let file ← getFile f
  let r ← writei ip (src.take writeMax) file.off
  modifyFile f fun file => { file with off := (file.off + r.getD 0) % 2 ^ 32 }
  iunlock ip
  return r

theorem fileWriteFrom_succ (f : Fin nfile) (ip : Slot) (fuel : Nat) (src : List UInt8) :
    fileWriteFrom f ip (fuel + 1) src = (if src = [] then return true else do
      let r ← chunk f ip src
      endOp
      match r with
      | none => return false
      | some r =>
        if r ≠ min src.length writeMax then throw (.panic "short filewrite")
        fileWriteFrom f ip fuel (src.drop writeMax)) := by
  calc fileWriteFrom f ip (fuel + 1) src
      = (if src = [] then return true else do
          beginOp
          ilock ip
          let file ← getFile f
          let r ← writei ip (src.take writeMax) file.off
          modifyFile f fun file => { file with off := (file.off + r.getD 0) % 2 ^ 32 }
          iunlock ip
          endOp
          match r with
          | none => return false
          | some r =>
            if r ≠ min src.length writeMax then throw (.panic "short filewrite")
            fileWriteFrom f ip fuel (src.drop writeMax)) := rfl
    _ = _ := by simp only [chunk, bind_assoc, pure_bind]

theorem iunlock_ends {s : State} {ip : Slot} (hbusy : (s.icache ip).busy = true) (href : 1 ≤ (s.icache ip).ref) : Ends (iunlock ip) s (fun _ s' => s'.log = s.log) E := by
  unfold iunlock
  refine .after_ok (show getInode ip s = .ok (s.icache ip) s from rfl) ?_
  rw [hbusy, if_neg (by simp only [Bool.true_eq_false, false_or, not_lt]; exact href)]
  exact .of_run_ok rfl rfl

/-- The transaction logs no more sectors than `begin_op` has reserved, and never more than there is room for. -/
def Fits {α : Type} (x : M α) (s : State) : Prop :=
  Ends x s (fun _ s' => s'.log.lh.length ≤ maxOpBlocks) fun e _ => e ≠ .panic "too big a transaction"

def inodeOf (s : State) (ip : Slot) : Dinode := dinodeAt s.blk (s.icache ip).inum

def planOf (sb : Superblock) (s : State) (ip : Slot) : Plan :=
  ⟨blockAt (inodeOf s ip) s.blk, (inodeOf s ip).addrs ndirect, freeBlocks sb s.blk⟩

structure InUse (sb : Superblock) (blk : Nat → Block) (b : Nat) : Prop where
  above : sb.firstData ≤ b
  below : b < sb.size
  used : used sb blk b = true

/-- No transaction is in progress, and the inode is a regular file that is not locked. Its blocks are in use and
all different; there may be holes. -/
structure Regular (sb : Superblock) (ip : Slot) (s : State) : Prop where
  super : getSuperblock (s.blk 1) = sb
  marked : ∀ b < sb.firstData, used sb s.blk b = true
  idle : s.held = []
  log : s.log.lh = [] ∧ s.log.outstanding = 0 ∧ s.log.committing = false ∧ logSize ≤ s.log.size
  unlocked : 1 ≤ (s.icache ip).ref ∧ (s.icache ip).busy = false ∧ (s.icache ip).valid = false
  inum : (s.icache ip).inum < sb.ninodes
  type : (inodeOf s ip).type = tFile
  blocks : ∀ bn < maxfile, blockAt (inodeOf s ip) s.blk bn ≠ 0 → InUse sb s.blk (blockAt (inodeOf s ip) s.blk bn)
  distinct : ∀ bn < maxfile, ∀ bn' < maxfile, blockAt (inodeOf s ip) s.blk bn ≠ 0 →
    blockAt (inodeOf s ip) s.blk bn = blockAt (inodeOf s ip) s.blk bn' → bn = bn'
  indirect : (inodeOf s ip).addrs ndirect ≠ 0 → InUse sb s.blk ((inodeOf s ip).addrs ndirect) ∧
    ∀ bn < maxfile, blockAt (inodeOf s ip) s.blk bn ≠ (inodeOf s ip).addrs ndirect

theorem blockAt_eq_entry (blk : Nat → Block) (i bn : Nat) :
    blockAt (dinodeAt blk i) blk bn = entry (dinodeAt blk) blk i (dataIndex bn) := by
  by_cases hlt : bn < ndirect
  · rw [blockAt, if_pos hlt, dataIndex, if_pos hlt, entry_of_le _ _ _ hlt.le]
  · rw [blockAt, if_neg hlt, dataIndex, if_neg hlt, entry, if_neg (show ¬ bn + 1 ≤ ndirect by omega),
      Nat.add_sub_add_right]

/-- While no system call runs, an inode in use that is a regular file is one in this sense. -/
theorem Inv.regular {g : Ghost} {T : Multiset Slot} {ip : Slot} {s : State} (hgeo : Geometry sb) (h : Inv sb g 0 T s)
    (hpos : 0 < holders g T ip) (hidle : s.held = [])
    (hlog : s.log.lh = [] ∧ s.log.outstanding = 0 ∧ s.log.committing = false ∧ logSize ≤ s.log.size)
    (htype : (inodeOf s ip).type = tFile) : Regular sb ip s := by
  obtain ⟨A, h⟩ := h
  have hdisk : DiskSound sb (dinodeAt s.blk) s.blk := h.disk.forget hgeo fun _ _ => .inr rfl
  have href := h.cache.ref_pos hpos
  have hfree : ip ∉ (0 : Multiset Slot) := Multiset.notMem_zero ip
  have halloc : Alloc sb (dinodeAt s.blk) (s.icache ip).inum :=
    ⟨h.cache.inRange ip href, fun hzero => absurd (htype.symm.trans hzero) (by decide)⟩
  have hin : ∀ n < entryCount, entry (dinodeAt s.blk) s.blk (s.icache ip).inum n ≠ 0 →
      InUse sb s.blk (entry (dinodeAt s.blk) s.blk (s.icache ip).inum n) := by
    intro n hn hne
    obtain ⟨habove, hbelow, hused⟩ := hdisk.inData _ n halloc hn hne
    exact ⟨habove, hbelow.trans_le (Geometry.logStart_le sb), hused⟩
  refine ⟨hdisk.super, hdisk.reserved, hidle, hlog, ⟨href, ?_, ?_⟩, halloc.1, htype, ?_, ?_, fun hi => ⟨?_, ?_⟩⟩
  · exact Bool.eq_false_iff.mpr fun hbusy => hfree ((h.cache.busy ip).mp hbusy)
  · exact Bool.eq_false_iff.mpr fun hvalid => hfree ((h.cache.valid ip).mp hvalid)
  · intro bn hbn hne
    rw [inodeOf, blockAt_eq_entry] at hne ⊢
    exact hin _ (dataIndex_lt hbn) hne
  · intro bn hbn bn' hbn' hne heq
    rw [inodeOf, blockAt_eq_entry] at hne heq
    rw [blockAt_eq_entry] at heq
    exact dataIndex_inj (hdisk.distinct _ _ _ _ halloc halloc (dataIndex_lt hbn) (dataIndex_lt hbn') hne heq).2
  · rw [inodeOf, ← entry_ndirect _ s.blk] at hi ⊢
    exact hin ndirect (by decide) hi
  · intro bn hbn heq
    rw [inodeOf, ← entry_ndirect _ s.blk] at hi
    rw [inodeOf, blockAt_eq_entry, ← entry_ndirect _ s.blk] at heq
    exact dataIndex_ne bn (hdisk.distinct _ _ _ _ halloc halloc (dataIndex_lt hbn) (by decide) (heq ▸ hi) heq).2

namespace Regular

variable {ip : Slot} {s : State} {src : List UInt8} {f : Fin nfile}

theorem sound (h : Regular sb ip s) : (planOf sb s ip).Sound sb := by
  have hused : ∀ {b}, InUse sb s.blk b → b ∉ freeBlocks sb s.blk := fun hb hmem => by
    have hclear := (mem_freeBlocks.mp hmem).2
    rw [hb.used] at hclear
    cases hclear
  refine ⟨fun b hb => ?_, nodup_range.filter _, fun bn hbn hmap => ?_, h.distinct, fun hi => ?_,
    fun hi bn hbn => ?_⟩
  · obtain ⟨hlt, hclear⟩ := mem_freeBlocks.mp hb
    refine ⟨?_, hlt⟩
    by_contra hbelow
    rw [h.marked b (by omega)] at hclear
    cases hclear
  · exact ⟨(h.blocks bn hbn hmap).above, hused (h.blocks bn hbn hmap)⟩
  · obtain ⟨hin, hapart⟩ := h.indirect hi
    exact ⟨hin.above, hin.below, hused hin, hapart⟩
  · exact (if_neg (Nat.not_lt.mpr hbn)).trans (if_pos hi)

def begun (s : State) : State := { s with log := { s.log with outstanding := s.log.outstanding + 1 } }

theorem beginOp_run (h : Regular sb ip s) : (beginOp : M Unit) s = .ok () (begun s) := by
  obtain ⟨hlh, hout, hcommit, -⟩ := h.log
  unfold beginOp
  rw [bind_ok _ (show (getLog : M Log) s = .ok s.log s from rfl)]
  dsimp only
  rw [if_neg (by rw [hcommit]; exact Bool.false_ne_true), if_neg (by rw [hlh, hout]; decide)]
  rfl

theorem written (h : Regular sb ip s) : Written sb (planOf sb s ip) ip
    ((locked (begun s) ip).icache ip) [] (locked (begun s) ip) := by
  obtain ⟨hlh, hout, -, hregion⟩ := h.log
  have hinode : (locked (begun s) ip).icache ip =
      { s.icache ip with toDinode := inodeOf s ip, busy := true, valid := true } := update_self ..
  have hempty : ¬ (planOf sb s ip).Extends [] :=
    fun ⟨_, hmem, _⟩ => not_mem_nil hmem
  refine ⟨∅, (inodeOf s ip).addrs ndirect, ?_⟩
  rw [Plan.needs, if_neg fun hnew => hempty hnew.2, decide_eq_false hempty]
  refine ⟨⟨h.super, rfl⟩, ⟨?_, hregion, ?_, ?_⟩, ⟨?_, Nat.zero_le _, rfl, ?_, .inl ⟨rfl, ?_⟩, ?_⟩, ?_, ?_, _, rfl⟩
  · change 1 ≤ s.log.outstanding + 1
    omega
  · change s.log.lh.Nodup
    rw [hlh]
    exact nodup_nil
  · change s.log.lh.toFinset = _
    rw [hlh]
    rfl
  · exact fun _ hmem => absurd hmem not_mem_nil
  · exact fun _ hmem => absurd hmem (Finset.notMem_empty _)
  · exact fun hfalse => absurd hfalse Bool.false_ne_true
  · exact Finset.notMem_empty _
  · rw [hinode]
  · intro bn _ _
    rw [hinode]
    rfl

theorem chunk_ends (h : Regular sb ip s) (f : Fin nfile) (src : List UInt8) :
    Ends (chunk f ip src) s
      (fun _ s' => Outcome (planOf sb s ip) sb
        (inodeOf s ip).size (s.ftable f).off (src.take writeMax).length s')
      (fun e' _ => Accepts (inodeOf s ip).size (s.ftable f).off (src.take writeMax).length ∧
        ChunkStops (planOf sb s ip) sb
          (spanned (s.ftable f).off (src.take writeMax).length)
          (decide ((inodeOf s ip).size < (s.ftable f).off + (src.take writeMax).length)) e') := by
  obtain ⟨href, hbusy, hvalid⟩ := h.unlocked
  have hinode : (locked (begun s) ip).icache ip =
      { s.icache ip with toDinode := inodeOf s ip, busy := true, valid := true } := update_self ..
  unfold chunk
  refine .after_ok h.beginOp_run ?_
  refine ((ilock_ends (begun s) ip fun hvalid' => absurd (hvalid.symm.trans hvalid') Bool.false_ne_true).mono
    (fun _ _ hQ => hQ) ?_).bind ?_
  · rintro e' _ ⟨-, hcause⟩
    rcases hcause with hcause | hcause | hcause | hcause
    · exact absurd (show (s.icache ip).ref < 1 from hcause) (by omega)
    · exact absurd (hbusy.symm.trans hcause) Bool.false_ne_true
    · rw [show (begun s).held = [] from h.idle] at hcause
      exact absurd hcause not_mem_nil
    · have htype := h.type.symm.trans hcause
      exact absurd htype (by decide)
  rintro _ _ ⟨rfl, -, -⟩
  refine .after_ok (show getFile f (locked (begun s) ip) = .ok (s.ftable f) (locked (begun s) ip) from rfl) ?_
  have hwritei := writei_ends h.sound h.written rfl
  rw [hinode] at hwritei
  refine (hwritei (by rw [h.type]; decide) h.inum (Bytes.word_lt ..) h.idle (length_take_le ..) _).bind ?_
  rintro r s' ⟨houtcome, size, addrs, hkept⟩
  refine .after_ok (modify_run s' _) ?_
  refine (iunlock_ends ?_ ?_).bind fun _ s'' hlog => .pure ?_
  · change (s'.icache ip).busy = true
    rw [hkept]
  · change 1 ≤ (s'.icache ip).ref
    rw [hkept]
    exact href
  rw [Outcome, hlog]
  exact houtcome

/-- The condition under which a chunk keeps to its reservation. -/
def Within (sb : Superblock) (ip : Slot) (off n : Nat) (s : State) : Prop :=
  Accepts (inodeOf s ip).size off n →
    (planOf sb s ip).needs (spanned off n) ≤ (planOf sb s ip).free.length →
      (planOf sb s ip).cost sb (spanned off n) (decide ((inodeOf s ip).size < off + n)) ≤ maxOpBlocks

theorem fits_of_within (h : Regular sb ip s) (hwithin : Within sb ip (s.ftable f).off (src.take writeMax).length s) : Fits (chunk f ip src) s := by
  refine (h.chunk_ends f src).mono ?_ ?_
  · intro _ s' houtcome
    rw [Outcome] at houtcome
    split at houtcome
    · rename_i hacc
      rw [houtcome.2]
      exact hwithin hacc houtcome.1
    · rw [houtcome]
      exact Nat.zero_le _
  · rintro e' _ ⟨hacc, ⟨rfl, -⟩ | ⟨-, hneeds, hcost⟩⟩
    · decide
    · exact absurd (hwithin hacc hneeds) (Nat.not_le.mpr hcost)

theorem within_of_fits (h : Regular sb ip s) (hfits : Fits (chunk f ip src) s) :
    Within sb ip (s.ftable f).off (src.take writeMax).length s := by
  intro hacc hneeds
  have hends := h.chunk_ends f src
  cases hrun : chunk f ip src s with
  | ok r s' =>
    have houtcome := hends.of_ok hrun
    rw [Outcome, if_pos hacc] at houtcome
    exact houtcome.2 ▸ hfits.of_ok hrun
  | error e' s' =>
    rcases (hends.of_error hrun).2 with ⟨-, hshort⟩ | ⟨hbig, -, -⟩
    · exact absurd hneeds (Nat.not_le.mpr hshort)
    · exact absurd hbig (hfits.of_error hrun)

end Regular

/-- A chunk of a write to a regular file keeps to its reservation exactly if the blocks it spans, the bitmap blocks
it changes, the indirect block and the block of the inode are few enough. -/
theorem filewrite_fits_iff {sb : Superblock} {ip : Slot} {s : State} (h : Regular sb ip s) (f : Fin nfile)
    (src : List UInt8) : Fits (chunk f ip src) s ↔ Regular.Within sb ip (s.ftable f).off (src.take writeMax).length s :=
  ⟨h.within_of_fits, h.fits_of_within⟩

/-! ### A file of twelve blocks -/

def wideSb : Superblock := ⟨47, 12, 8, 30⟩

/-- Inode 2 is a regular file of twelve blocks, all of the data region. -/
def wideDisk : Nat → Block
  | 1 => putSuperblock (fun _ => 0) wideSb
  | 2 => putDinode (fun _ => 0) 2 ⟨tFile, 0, 0, 1, 12 * bsize, fun k => if k < 12 then 5 + k else 0⟩
  | 4 => fun i => if i.val < 2 then 0xff else if i.val = 2 then 1 else 0
  | _ => fun _ => 0

def wide : State where
  blk := wideDisk
  held := []
  log := ⟨⟨17, 30⟩, 0, false, []⟩
  icache ip := if ip = ⟨0, ninode_pos⟩ then { Inode.zero with inum := 2, ref := 1 } else .zero
  ftable f := if f = ⟨0, nfile_pos⟩ then ⟨.inode, 1, true, true, ⟨0, ninode_pos⟩, 0⟩ else .zero
  procs _ := ⟨none, fun _ => none⟩
  input := []
  ballocs := []
  iputs := []
  iunlocks := []

theorem wide_blockAt : ∀ bn < 140, blockAt (dinodeAt wideDisk 2) wideDisk bn = if bn < 12 then 5 + bn else 0 := by
  decide +kernel

theorem wide_regular : Regular wideSb ⟨0, by decide⟩ wide := by
  have hused : ∀ b < 17, used wideSb wideDisk b = true := by decide +kernel
  have hfirst : wideSb.firstData = 5 := by decide
  have hat : ∀ bn < maxfile, blockAt (dinodeAt wideDisk 2) wideDisk bn ≠ 0 →
      bn < 12 ∧ blockAt (dinodeAt wideDisk 2) wideDisk bn = 5 + bn := by
    intro bn hbn hne
    rw [wide_blockAt bn hbn] at hne ⊢
    split at hne
    · rename_i hlt
      exact ⟨hlt, if_pos hlt⟩
    · exact absurd rfl hne
  refine ⟨by decide +kernel, fun b hb => hused b (by omega), rfl, ⟨rfl, rfl, rfl, le_rfl⟩, ⟨by decide, rfl, rfl⟩,
    by decide, by decide +kernel, fun bn hbn hne => ?_, fun bn hbn bn' hbn' hne heq => ?_, fun hne => ?_⟩
  · obtain ⟨hlt, heq⟩ := hat bn hbn hne
    change InUse wideSb wideDisk (blockAt (dinodeAt wideDisk 2) wideDisk bn)
    rw [heq]
    exact ⟨by omega, by change 5 + bn < 47; omega, hused _ (by omega)⟩
  · obtain ⟨-, heq'⟩ := hat bn hbn hne
    obtain ⟨-, heq''⟩ := hat bn' hbn' (heq ▸ hne)
    change blockAt (dinodeAt wideDisk 2) wideDisk bn = blockAt (dinodeAt wideDisk 2) wideDisk bn' at heq
    omega
  · exact absurd (by decide +kernel : (dinodeAt wideDisk 2).addrs ndirect = 0) hne

/-- Overwriting the whole file logs twelve sectors. -/
theorem filewrite_exceeds : Regular wideSb ⟨0, by decide⟩ wide ∧
    ¬ Fits (chunk ⟨0, by decide⟩ ⟨0, by decide⟩ (List.replicate 6144 7)) wide := by
  refine ⟨wide_regular, fun hfits => ?_⟩
  have hwithin := wide_regular.within_of_fits hfits
  rw [length_take, length_replicate, show min writeMax 6144 = 6144 from rfl] at hwithin
  revert hwithin
  rw [Regular.Within]
  decide +kernel

theorem filewrite_fits_iff_wide : Regular wideSb ⟨0, by decide⟩ wide ∧
    Fits (chunk ⟨0, by decide⟩ ⟨0, by decide⟩ [7]) wide :=
  ⟨wide_regular, (filewrite_fits_iff wide_regular ⟨0, by decide⟩ [7]).mpr (by rw [Regular.Within]; decide +kernel)⟩

end RainOS.Fs
