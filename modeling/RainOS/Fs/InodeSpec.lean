import RainOS.Fs.Alloc

/-!
# Specifications of the inode layer

What the functions on inodes do to a sound state: which slots they lock and unlock, which references
they take and drop. `bmap` gives a data block of the inode it is called on.
-/

namespace RainOS.Fs

open BlockStore Function List

variable {sb : Superblock} {clean p : Prop} {A : Table} {g : Ghost} {L T : Multiset Slot} {ip : Slot}
  {type b k off : Nat} {icache : Slot → Inode} {P Q : State → Prop} {f : Inode → Inode} {s : State}

/-! ### Slots -/

theorem AlwaysParts.update {iputs : List IputCall} {ballocs : List BallocCall}
    (h : AlwaysParts sb clean icache iputs ballocs) {e : Inode} (he : e.valid = true → e.busy = true) :
    AlwaysParts sb clean (update icache ip e) iputs ballocs := by
  refine ⟨fun x hx => ?_, h.iputs, h.judged⟩
  by_cases hxi : x = ip
  · rw [hxi, update_self] at hx ⊢
    exact he hx
  · rw [update_of_ne hxi] at hx ⊢
    exact h.flags x hx

theorem getInode_spec (ip : Slot) :
    Spec sb clean P (getInode ip) fun e s => P s ∧ e = s.icache ip :=
  Triple.bind Triple.get fun _ => .pure fun _ hs => ⟨hs.1, by rw [hs.2]⟩

theorem modifyInode_run (ip : Slot) (f : Inode → Inode) (s : State) : modifyInode ip f s =
    .ok () { s with icache := update s.icache ip (f (s.icache ip)) } := by
  rw [modifyInode, modify_run, store_eq_update]

theorem modifyInode_spec (hf : ∀ e, (e.valid = true → e.busy = true) → (f e).valid = true → (f e).busy = true)
    (h : ∀ s, P s → Q { s with icache := update s.icache ip (f (s.icache ip)) }) :
    Spec sb clean P (modifyInode ip f) fun _ => Q := by
  simp only [modifyInode, store_eq_update]
  exact .modify (fun s hI => AlwaysParts.update hI (hf (s.icache ip) (hI.flags ip)))
    (fun _ hg => hg) h

/-- Changes to what the inode table does not have of an inode. -/
structure Minor (f : Inode → Inode) : Prop where
  inum : ∀ e, (f e).inum = e.inum
  ref : ∀ e, (f e).ref = e.ref
  busy : ∀ e, (f e).busy = e.busy
  valid : ∀ e, (f e).valid = e.valid
  type : ∀ e, (f e).type = e.type
  addrs : ∀ e, (f e).addrs = e.addrs

theorem minor_spec (hf : Minor f) :
    Spec sb clean (Inv sb g L T) (modifyInode ip f) fun _ => Inv sb g L T := by
  refine modifyInode_spec (fun e he hvalid => ?_) ?_
  · rw [hf.valid] at hvalid
    rw [hf.busy]
    exact he hvalid
  · rintro s ⟨A, h⟩
    exact ⟨A, h.disk, h.cache.modify (hf.inum _) (hf.ref _) (hf.busy _) (hf.valid _) (hf.type _)
      (hf.addrs _), h.log, h.files, h.procs⟩

theorem iget_spec (inum : Nat) : Spec sb clean (fun s => inum < sb.ninodes ∧ Sound sb A g L T s)
    (iget inum) fun ip s => Sound sb A g L (ip ::ₘ T) s ∧ (s.icache ip).inum = inum := by
  intro s hI hG
  unfold iget
  refine .after_ok (get_run s) ?_
  cases hcached : (finRange ninode).find? fun i => 0 < (s.icache i).ref ∧ (s.icache i).inum = inum with
  | some ip =>
    have hfound := find?_some hcached
    rw [decide_eq_true_eq] at hfound
    refine .after_ok (modifyInode_run _ _ s) (.pure ⟨hI.update (hI.flags ip), fun hg => ?_⟩)
    obtain ⟨-, h⟩ := hG hg
    exact ⟨hg, ⟨h.disk, h.cache.dup hfound.1, h.log, h.files, h.procs⟩, by
      change (update s.icache ip _ ip).inum = inum
      rw [update_self]
      exact hfound.2⟩
  | none =>
    dsimp only
    cases hempty : (finRange ninode).find? fun i => (s.icache i).ref = 0 with
    | none => exact .throw ⟨hI, by decide⟩
    | some ip =>
      have hfree := find?_some hempty
      rw [decide_eq_true_eq] at hfree
      refine .after_ok (modifyInode_run _ _ s) (.pure ⟨hI.update (nomatch ·), fun hg => ?_⟩)
      obtain ⟨hinum, h⟩ := hG hg
      refine ⟨hg, ⟨h.disk, h.cache.take hinum hfree fun x hx heq => ?_, h.log, h.files, h.procs⟩, ?_⟩
      · have hnone := find?_eq_none.mp hcached x (mem_finRange x)
        rw [decide_eq_true_eq] at hnone
        exact hnone ⟨hx, heq⟩
      · change (update s.icache ip _ ip).inum = inum
        rw [update_self]

theorem idup_spec (ip : Slot) : Spec sb clean (fun s => 0 < holders g T ip ∧ Inv sb g L T s) (idup ip)
    fun ip' s => ip' = ip ∧ Inv sb g L (ip ::ₘ T) s := by
  unfold idup
  refine .bind (Q := fun _ => Inv sb g L (ip ::ₘ T)) ?_ fun _ => .pure fun _ hs => ⟨rfl, hs⟩
  refine modifyInode_spec (fun e he => he) ?_
  rintro s ⟨hpos, A, h⟩
  exact ⟨A, h.disk, h.cache.dup (h.cache.ref_pos hpos), h.log, h.files, h.procs⟩

def locked (s : State) (ip : Slot) : State :=
  { s with
    icache := update s.icache ip
      { s.icache ip with
        toDinode := dinodeAt s.blk (s.icache ip).inum, busy := true, valid := true } }

theorem ilock_ends (s : State) (ip : Slot) (hflags : (s.icache ip).valid = true → (s.icache ip).busy = true) :
    Ends (ilock ip) s
      (fun _ s' => s' = locked s ip ∧ (s.icache ip).busy = false ∧ (dinodeAt s.blk (s.icache ip).inum).type ≠ 0)
      (fun e s' => (Tame e ∧ ∃ e', (e'.valid = true → e'.busy = true) ∧
          s' = { s with icache := update s.icache ip e' }) ∧
        ((s.icache ip).ref < 1 ∨ (s.icache ip).busy = true ∨ iblock (s.icache ip).inum ∈ s.held ∨
          (dinodeAt s.blk (s.icache ip).inum).type = 0)) := by
  unfold ilock
  have hget : getInode ip s = .ok (s.icache ip) s := rfl
  have hsame : s = { s with icache := update s.icache ip (s.icache ip) } := by rw [update_eq_self]
  refine .after_ok hget ?_
  dsimp only
  split
  · rename_i href
    exact .after_error rfl ⟨⟨by decide, _, hflags, hsame⟩, .inl href⟩
  split
  · rename_i hbusy
    exact .after_error rfl ⟨⟨by decide, _, hflags, hsame⟩, .inr (.inl hbusy)⟩
  rename_i hbusy
  rw [Bool.not_eq_true] at hbusy
  have hvalid : (s.icache ip).valid = false := by
    rw [← Bool.not_eq_true]
    intro hvalid
    exact Bool.false_ne_true (hbusy.symm.trans (hflags hvalid))
  rw [hvalid]
  refine .after_ok (modifyInode_run _ _ s) ?_
  refine ((bread_ends _ (iblock (s.icache ip).inum)).stop ?_).bind ?_
  · rintro e _ ⟨he, rfl, hheld⟩
    exact ⟨⟨he, _, fun _ => rfl, rfl⟩, .inr (.inr (.inl hheld))⟩
  rintro bp _ ⟨rfl, rfl⟩
  refine .after_ok (modifyInode_run _ _ _) ?_
  refine .after_ok (brelse_held_run rfl) ?_
  refine .after_ok (modifyInode_run _ _ _) ?_
  simp only [update_idem, update_self]
  split
  · rename_i htype
    exact .throw ⟨⟨by decide, _, fun _ => rfl, rfl⟩, .inr (.inr (.inr htype))⟩
  · rename_i htype
    exact .pure ⟨rfl, hbusy, htype⟩

theorem ilock_spec (hgeo : Geometry sb) (ip : Slot) : Spec sb clean (fun s => 0 < holders g T ip ∧ Inv sb g L T s) (ilock ip)
    fun _ => Inv sb g (ip ::ₘ L) T := by
  intro s hI hG
  refine (ilock_ends s ip (hI.flags ip)).mono ?_ ?_
  · rintro _ _ ⟨rfl, hbusy, htype⟩
    refine ⟨hI.update fun _ => rfl, fun hg => ⟨hg, ?_⟩⟩
    obtain ⟨hpos, A, h⟩ := hG hg
    have hfree : ip ∉ L := fun hip => by
      rw [(h.cache.busy ip).mpr hip] at hbusy
      cases hbusy
    have hinum := h.cache.inRange ip (h.cache.ref_pos hpos)
    exact ⟨_, h.disk.forgetOne hgeo _, h.cache.lock hfree hpos (h.disk.stored _ hinum).1 htype,
      h.log, h.files, h.procs⟩
  · rintro e _ ⟨⟨he, e', hflags, rfl⟩, -⟩
    exact ⟨hI.update hflags, he⟩

theorem ilock_head_spec (hgeo : Geometry sb) (ip : Slot) : Spec sb clean (Inv sb g L (ip ::ₘ T)) (ilock ip)
    fun _ => Inv sb g (ip ::ₘ L) (ip ::ₘ T) :=
  (ilock_spec hgeo ip).pre fun _ hs => ⟨holders_pos_of_mem (Multiset.mem_cons_self ip T), hs⟩

theorem iunlock_spec (hgeo : Geometry sb) (ip : Slot) :
    Spec sb clean (Inv sb g (ip ::ₘ L) T) (iunlock ip) fun _ => Inv sb g L T := by
  unfold iunlock
  refine (getInode_spec ip).bind fun e => ?_
  refine .ite (fun _ => .throw_bind (by decide)) fun _ => ?_
  refine .bind (Q := fun _ => Inv sb g L T) (modifyInode_spec (fun _ _ hvalid => nomatch hvalid) ?_)
    fun _ => .modify (fun _ hI => hI) (fun _ hg => hg) fun _ hs => hs
  rintro s ⟨⟨A, h⟩, -⟩
  have hmem : ip ∈ ip ::ₘ L := Multiset.mem_cons_self ip L
  have hinum := (h.cache.alloc hmem).1
  exact ⟨_, h.disk.forgetOne hgeo _, h.cache.unlock (h.disk.stored _ hinum).1, h.log, h.files, h.procs⟩

theorem iput_spec (ip : Slot) (hkept : ∀ x, x ∈ L ∨ x ∈ g.plain → x ∈ T) :
    Spec sb clean (Inv sb g L (ip ::ₘ T)) (iput ip) fun _ => Inv sb g L T := by
  intro s hI hG
  unfold iput
  refine .after_ok (get_run s) ?_
  dsimp only
  split
  · rename_i hlast
    rw [if_pos (hI.flags ip hlast.2.1)]
    exact .after_error rfl ⟨hI, by decide⟩
  · have hupdate : AlwaysParts sb clean (update s.icache ip
        { s.icache ip with ref := (s.icache ip).ref - 1 }) s.iputs s.ballocs :=
      hI.update (hI.flags ip)
    refine .after_ok (modifyInode_run _ _ s) (.modify ⟨⟨hupdate.flags, ?_, hI.judged⟩, fun hg => ⟨hg, ?_⟩⟩)
    · intro c hc
      rw [mem_append, mem_singleton] at hc
      rcases hc with hc | rfl
      · exact hI.iputs c hc
      · rfl
    · obtain ⟨A, h⟩ := hG hg
      exact ⟨A, h.disk, h.cache.put hkept, h.log, h.files, h.procs⟩

theorem iunlockput_spec (hgeo : Geometry sb) (ip : Slot) (hkept : ∀ x, x ∈ L ∨ x ∈ g.plain → x ∈ T) :
    Spec sb clean (Inv sb g (ip ::ₘ L) (ip ::ₘ T)) (iunlockput ip) fun _ => Inv sb g L T := by
  unfold iunlockput
  exact (iunlock_spec hgeo ip).bind fun _ => iput_spec ip hkept

/-! ### Inodes on disk -/

theorem iupdate_ends (s : State) (ip : Slot) : Ends (iupdate ip) s
    (fun _ s' => s' = logged s (iblock (s.icache ip).inum)
      (putDinode (s.blk (iblock (s.icache ip).inum)) (s.icache ip).inum (s.icache ip).toDinode))
    (fun e s' => Stopped s e s' ∧ (iblock (s.icache ip).inum ∈ s.held ∨ LogRefuses s.log 1 e)) := by
  unfold iupdate
  have hget : getInode ip s = .ok (s.icache ip) s := rfl
  exact .after_ok hget (rewrite_ends s _ fun data => putDinode data (s.icache ip).inum (s.icache ip).toDinode)

theorem iupdate_spec (hgeo : Geometry sb) (hip : ip ∈ L) :
    Spec sb clean (Inv sb g L T) (iupdate ip) fun _ => Inv sb g L T := by
  unfold iupdate
  refine (getInode_spec ip).bind fun e => ?_
  refine rewrite_spec (fun _ _ hs => hs) blind_inv (iblock e.inum)
    (fun data => putDinode data e.inum e.toDinode) ?_
  rintro s ⟨⟨A, h⟩, rfl⟩
  have halloc := h.cache.alloc hip
  obtain ⟨-, htype, haddrs⟩ := h.cache.copy ip hip
  have hlt := iblock_lt_firstData halloc.1
  exact ⟨A, h.logged (by have hdata := hgeo.data; omega) (h.disk.putInode hgeo halloc htype haddrs)
    h.cache⟩

def Ghost.mark (g : Ghost) (ip : Slot) (p : Prop) : Ghost :=
  { g with plain := {x | x ∈ g.plain ∨ x = ip ∧ p} }

theorem CacheSound.mark (h : CacheSound sb A g L T icache) (hpos : p → 0 < holders g T ip) (hp : p → NotDir A (icache ip).inum) :
    CacheSound sb A (g.mark ip p) L T icache := by
  refine ⟨h.nodup, h.busy, h.valid, h.refs, ?_, h.single, h.inRange, h.copy, ?_, h.files⟩
  · intro x hx
    rcases hx with hx | hx | ⟨rfl, hx⟩
    · exact h.kept x (.inl hx)
    · exact h.kept x (.inr hx)
    · exact hpos hx
  · intro x hx
    rcases hx with hx | ⟨rfl, hx⟩
    · exact h.plain x hx
    · exact hp hx

theorem Inv.unmark (h : Inv sb g L T s) (plain : Set Slot) (hplain : plain ⊆ g.plain) :
    Inv sb { g with plain := plain } L T s := by
  obtain ⟨A, h⟩ := h
  have hcache := h.cache
  exact ⟨A, h.disk, ⟨hcache.nodup, hcache.busy, hcache.valid, hcache.refs,
    fun x hx => hcache.kept x (hx.imp_right fun hx => hplain hx), hcache.single, hcache.inRange,
    hcache.copy, fun x hx => hcache.plain x (hplain hx), hcache.files⟩, h.log, h.files, h.procs⟩

theorem iallocScan_spec (hgeo : Geometry sb) (htype : type < 2 ^ 16) (inums : List Nat) :
    Spec sb clean (fun s => (∀ i ∈ inums, i < sb.ninodes) ∧ Inv sb g L T s) (iallocScan type inums)
      fun found s => match found with
        | some i => i < sb.ninodes ∧ ∃ A, Sound sb A g L T s ∧ (A i).type = type
        | none => Inv sb g L T s := by
  induction inums with
  | nil => exact .pure fun _ hs => hs.2
  | cons i rest ih =>
    rw [iallocScan]
    refine (bread_spec (fun _ _ hs => hs) (iblock i)).bind fun bp => ?_
    refine .ite (fun hfree => ?_) fun _ => ?_
    · refine .bind (logWrite_spec (Q := fun s => i < sb.ninodes ∧
        ∃ A, Sound sb A g L T s ∧ (A i).type = type) _ ?_) fun bp' => ?_
      · rintro s ⟨⟨hall, A, h⟩, hsector, hdata⟩
        have hi := hall i mem_cons_self
        have hnone : (A i).type = 0 := by
          rw [← (h.disk.stored i hi).1, ← hfree, hdata]
          rfl
        have hlt := iblock_lt_firstData hi
        refine ⟨hi, update A i (.fresh type), ?_, by rw [update_self]; rfl⟩
        change Sound sb _ g L T (logged s bp.sector (putDinode bp.data i (.fresh type)))
        rw [hsector, hdata]
        refine h.logged (by have hdata := hgeo.data; omega) (h.disk.newInode hgeo hi hnone htype) ?_
        refine h.cache.table (fun j _ hj => ?_) fun x hx k _ => ?_
        · have hji : j ≠ i := fun heq => hj (by rw [heq, hnone])
          rw [update_of_ne hji]
        · have hxi : (s.icache x).inum ≠ i := fun heq =>
            (h.cache.copy x hx).1 (by rw [heq, hnone])
          rw [update_of_ne hxi]
      · refine .bind (brelse_spec (fun _ _ hs => hs) bp') fun _ => ?_
        exact .pure fun _ hs => hs
    · refine .bind (brelse_spec (fun _ _ hs => hs) bp) fun _ => ?_
      exact ih.pre fun s hs => ⟨fun j hj => hs.1.1 j (mem_cons_of_mem i hj), hs.1.2⟩

theorem ialloc_spec (hgeo : Geometry sb) (hne : type ≠ 0) (htype : type < 2 ^ 16) :
    Spec sb clean (Inv sb g L T) (ialloc type)
      fun ip => Inv sb (g.mark ip (type ≠ tDir)) L (ip ::ₘ T) := by
  unfold ialloc
  refine (readsb_spec blind_inv).bind fun sb' => ?_
  refine .bind ((iallocScan_spec (g := g) (L := L) (T := T) hgeo htype _).pre ?_) fun found => ?_
  · rintro s ⟨⟨A, h⟩, rfl⟩
    refine ⟨fun i hi => ?_, A, h⟩
    rw [h.disk.super, mem_range'_1] at hi
    have hroot := hgeo.root
    omega
  · cases found with
    | none => exact .throw (by decide)
    | some i =>
      have higet : ∀ A : Table, Spec sb clean
          (fun s => (A i).type = type ∧ i < sb.ninodes ∧ Sound sb A g L T s) (iget i)
          fun ip => Inv sb (g.mark ip (type ≠ tDir)) L (ip ::ₘ T) := by
        intro A
        refine (iget_spec i).frame.post ?_
        rintro ip s ⟨ht, h, rfl⟩
        have hpos : 0 < holders g (ip ::ₘ T) ip := holders_pos_of_mem (Multiset.mem_cons_self ip T)
        exact ⟨A, h.disk, h.cache.mark (fun _ => hpos) fun hdir => ⟨by rwa [ht], by rwa [ht]⟩,
          h.log, h.files, h.procs⟩
      exact (Triple.of_exists higet).pre fun s ⟨hi, A, h, ht⟩ => ⟨A, ht, hi, h⟩

/-! ### Inode content -/

/-- Block `b` holds data of the inode in slot `ip`. -/
def DataBlock (A : Table) (ip : Slot) (b : Nat) (s : State) : Prop :=
  ∃ n < entryCount, n ≠ ndirect ∧ entry A s.blk (s.icache ip).inum n = b ∧ b ≠ 0

theorem Fresh.ne_zero {blk : Nat → Block} (h : Fresh sb A blk b) : b ≠ 0 := by
  have hone := one_lt_firstData sb
  have habove := h.above
  omega

theorem addrAt_spec (hgeo : Geometry sb) (hip : ip ∈ L) (hk : k ≤ ndirect) (t : Nat) :
    Spec sb clean (fun s => Inv sb g L T s ∧ (s.icache ip).type = t) (addrAt ip k)
      fun b s => ∃ A, Sound sb A g L T s ∧ (s.icache ip).type = t ∧
        (A (s.icache ip).inum).addrs k = b ∧ b ≠ 0 := by
  unfold addrAt
  simp only [store_eq_update]
  refine (getInode_spec ip).bind fun e => ?_
  refine .ite (fun hnone => ?_) fun hsome => ?_
  · have hballoc : ∀ X : Table × (Nat → Block) × (Slot → Inode), Spec sb clean
        (fun s => (X.2.2 ip = e ∧ (X.2.2 ip).type = t) ∧
          Sound sb X.1 g L T s ∧ s.blk = X.2.1 ∧ s.icache = X.2.2) balloc
        (fun b s => ∃ A, Sound sb A g L T s ∧ s.icache ip = e ∧ e.type = t ∧ Fresh sb A s.blk b ∧
          s.blk b = fun _ => 0) := by
      rintro ⟨A, D, C⟩
      refine (balloc_spec hgeo D C).frame.post ?_
      rintro b s ⟨⟨rfl, ht⟩, h, rfl, hfresh, hclear, -⟩
      exact ⟨A, h, rfl, ht, hfresh, hclear⟩
    refine Triple.bind ((Triple.of_exists hballoc).pre ?_) fun b => ?_
    · rintro s ⟨⟨⟨A, h⟩, ht⟩, rfl⟩
      exact ⟨⟨A, s.blk, s.icache⟩, ⟨rfl, ht⟩, h, rfl, rfl⟩
    · refine .bind (Q := fun _ s => ∃ A, Sound sb A g L T s ∧ (s.icache ip).type = t ∧
        (A (s.icache ip).inum).addrs k = b ∧ b ≠ 0) (modifyInode_spec (fun _ he => he) ?_)
        fun _ => .pure fun _ hs => hs
      rintro s ⟨A, h, rfl, ht, hfresh, hclear⟩
      have hzero : (A (s.icache ip).inum).addrs k = 0 := by
        rw [← (h.cache.copy ip hip).2.2 k hk, hnone]
      refine ⟨_, ⟨h.disk.setAddr hgeo (h.cache.alloc hip) hk hzero hfresh hclear,
        h.cache.setAddr hip k b, h.log, h.files, h.procs⟩, ?_, ?_, hfresh.ne_zero⟩
      · change (update s.icache ip _ ip).type = t
        rw [update_self]
        exact ht
      · change (update A (s.icache ip).inum _ (update s.icache ip _ ip).inum).addrs k = b
        rw [update_self]
        change (update A (s.icache ip).inum _ (s.icache ip).inum).addrs k = b
        rw [update_self, Dinode.addrs_setAddr, if_pos rfl]
  · refine .pure ?_
    rintro s ⟨⟨⟨A, h⟩, ht⟩, rfl⟩
    exact ⟨A, h, ht, ((h.cache.copy ip hip).2.2 k hk).symm, hsome⟩

theorem bmap_spec (hgeo : Geometry sb) (hip : ip ∈ L) (bn t : Nat) :
    Spec sb clean (fun s => Inv sb g L T s ∧ (s.icache ip).type = t) (bmap ip bn)
      fun b s => ∃ A, Sound sb A g L T s ∧ (s.icache ip).type = t ∧ DataBlock A ip b s := by
  unfold bmap
  refine .ite (fun hdirect => ?_) fun hge => .ite (fun hlt => ?_) fun _ =>
    Triple.throw (by decide)
  · refine (addrAt_spec hgeo hip hdirect.le t).post ?_
    rintro b s ⟨A, h, ht, haddr, hne⟩
    have hcount : ndirect < entryCount := by decide
    exact ⟨A, h, ht, bn, by omega, by omega, by rw [entry_of_le _ _ _ hdirect.le, haddr], hne⟩
  · have hentry : ndirect + 1 + (bn - ndirect) < entryCount := by
      rw [entryCount]
      omega
    refine (addrAt_spec hgeo hip le_rfl t).bind fun addr => ?_
    refine (bread_spec (fun _ _ hs => hs) addr).bind fun bp => ?_
    refine .ite (fun hnone => ?_) fun hsome => ?_
    · -- the indirect block that was read stays as it is while the new block is allocated
      have hballoc : ∀ X : Table × (Nat → Block) × (Slot → Inode), Spec sb clean
          (fun s => ((X.2.2 ip).type = t ∧ Alloc sb X.1 (X.2.2 ip).inum ∧
              (X.1 (X.2.2 ip).inum).addrs ndirect = addr ∧ addr ≠ 0 ∧ bp.data = X.2.1 addr ∧
              bp.sector = addr) ∧
            Sound sb X.1 g L T s ∧ s.blk = X.2.1 ∧ s.icache = X.2.2) balloc
          (fun b s => ∃ A, Sound sb A g L T s ∧ (s.icache ip).type = t ∧
            (A (s.icache ip).inum).addrs ndirect = addr ∧ addr ≠ 0 ∧ bp.data = s.blk addr ∧
            bp.sector = addr ∧ Fresh sb A s.blk b ∧ s.blk b = fun _ => 0) := by
        rintro ⟨A, D, C⟩
        refine (balloc_spec hgeo D C).frame.post ?_
        rintro b s ⟨⟨ht, halloc, haddr, hne, hdata, hsector⟩, h, rfl, hfresh, hclear, hkept⟩
        refine ⟨A, h, ht, haddr, hne, ?_, hsector, hfresh, hclear⟩
        have hsame := hkept _ ndirect halloc (by decide)
        rw [entry_ndirect, haddr] at hsame
        rw [hdata, hsame hne]
      refine Triple.bind ((Triple.of_exists hballoc).pre ?_) fun b => ?_
      · rintro s ⟨⟨A, h, ht, haddr, hne⟩, hsector, hdata⟩
        exact ⟨⟨A, s.blk, s.icache⟩, ⟨ht, h.cache.alloc hip, haddr, hne, hdata, hsector⟩, h, rfl, rfl⟩
      · refine .bind (logWrite_spec (Q := fun s => ∃ A, Sound sb A g L T s ∧
          (s.icache ip).type = t ∧ DataBlock A ip b s) _ ?_) fun bp' => ?_
        · rintro s ⟨A, h, ht, rfl, hne, hdata, hsector, hfresh, hclear⟩
          have halloc := h.cache.alloc hip
          have hdisk := h.disk.setIndirect hgeo halloc hlt hne hfresh hclear
          have hindirect := h.disk.indirect halloc hne
          refine ⟨A, ?_, ht, ndirect + 1 + (bn - ndirect), hentry, by omega, ?_, hfresh.ne_zero⟩
          · change Sound sb A g L T (logged s bp.sector (bp.data.setWord 4 (4 * (bn - ndirect)) b))
            rw [hsector, hdata]
            exact h.logged hindirect.2 hdisk h.cache
          · change entry A (update s.blk bp.sector (bp.data.setWord 4 (4 * (bn - ndirect)) b))
              (s.icache ip).inum (ndirect + 1 + (bn - ndirect)) = b
            rw [entry_of_gt _ _ (by omega) hne, Nat.add_sub_cancel_left, hsector, update_self,
              Bytes.word_setWord]
            · have hle := Geometry.logStart_le sb
              have hbelow := hfresh.below
              have hsize := hgeo.size
              exact Nat.mod_eq_of_lt (by omega)
            · simp only [nindirect, bsize] at hlt ⊢
              omega
        · refine .bind (brelse_spec (fun _ _ hs => hs) bp') fun _ => ?_
          exact .pure fun _ hs => hs
    · refine .bind (brelse_spec (fun _ _ hs => hs) bp) fun _ => ?_
      refine .pure ?_
      rintro s ⟨⟨A, h, ht, rfl, hne⟩, -, hdata⟩
      refine ⟨A, h, ht, ndirect + 1 + (bn - ndirect), hentry, by omega, ?_, hsome⟩
      rw [entry_of_gt _ _ (by omega) hne, Nat.add_sub_cancel_left, hdata]

theorem Inv.kept (h : Inv sb g L T s) (hip : ip ∈ L) : 0 < holders g T ip := by
  obtain ⟨A, h⟩ := h
  exact h.cache.kept ip (.inl hip)

section

variable (hgeo : Geometry sb) (hip : ip ∈ L)
include hgeo hip

theorem consoleread_spec (n : Nat) :
    Spec sb clean (Inv sb g L T) (consoleread ip n) fun _ => Inv sb g L T := by
  obtain ⟨L₀, rfl⟩ := Multiset.exists_cons_of_mem hip
  unfold consoleread
  refine .pre (.bind (iunlock_spec (L := L₀) hgeo ip).frame fun _ => ?_)
    fun s hs => ⟨hs.kept hip, hs⟩
  refine .bind Triple.get fun s => ?_
  refine .bind (Q := fun _ s => 0 < holders g T ip ∧ Inv sb g L₀ T s)
    (.modify (fun _ hI => hI) (fun _ hg => hg) fun _ hs => hs.1) fun _ => ?_
  exact (ilock_spec hgeo ip).bind fun _ => .skip

theorem consolewrite_spec (n : Nat) :
    Spec sb clean (Inv sb g L T) (consolewrite ip n) fun _ => Inv sb g L T := by
  obtain ⟨L₀, rfl⟩ := Multiset.exists_cons_of_mem hip
  unfold consolewrite
  refine .pre (.bind (iunlock_spec (L := L₀) hgeo ip).frame fun _ => ?_)
    fun s hs => ⟨hs.kept hip, hs⟩
  exact .bind (ilock_spec hgeo ip) fun _ => .pure fun _ hs => hs

theorem readFrom_spec (t fuel off n : Nat) :
    Spec sb clean (fun s => Inv sb g L T s ∧ (s.icache ip).type = t) (readFrom ip fuel off n)
      fun _ s => Inv sb g L T s ∧ (s.icache ip).type = t := by
  induction fuel generalizing off n with
  | zero => exact .skip
  | succ fuel ih =>
    rw [readFrom]
    refine .ite (fun _ => .skip) fun _ => ?_
    refine ((bmap_spec hgeo hip (off / bsize) t).post
      fun b s ⟨A, h, ht, _⟩ => (⟨⟨A, h⟩, ht⟩ : Inv sb g L T s ∧ (s.icache ip).type = t)).bind fun addr => ?_
    refine ((bread_spec (fun _ _ hs => hs) addr).post fun _ _ hs => hs.1).bind fun bp => ?_
    refine (brelse_spec (fun _ _ hs => hs) bp).bind fun _ => ?_
    exact (ih _ _).bind fun rest => .skip

theorem readi_spec (off n : Nat) :
    Spec sb clean (Inv sb g L T) (readi ip off n) fun _ => Inv sb g L T := by
  unfold readi
  refine (getInode_spec ip).bind fun e => ?_
  refine .ite (fun _ => .ite (fun _ => ?_) fun _ => .pure fun _ hs => hs.1) fun _ =>
    Triple.ite (fun _ => .pure fun _ hs => hs.1) fun _ => ?_
  · exact ((consoleread_spec hgeo hip n).pre fun _ hs => hs.1).bind fun _ => .skip
  · refine .bind ((readFrom_spec hgeo hip e.type n off _).pre ?_) fun _ => .pure fun _ hs => hs.1
    rintro s ⟨hs, rfl⟩
    exact ⟨hs, rfl⟩

end

/-! ### Writing -/

/-- What is written leaves directories in order: nothing, something to an inode that is no directory,
or a whole entry that names an inode. -/
def Harmless (sb : Superblock) (g : Ghost) (ip : Slot) (off : Nat) (src : List UInt8) : Prop :=
  src = [] ∨ ip ∈ g.plain ∨
    direntSize ∣ off ∧ src.length = direntSize ∧ Mem.word (fun j => src.getD j 0) 2 0 < sb.ninodes

theorem DirBlock.copyIn {d : Block} (h : DirBlock sb d) {src : Mem} (hoff : direntSize ∣ off)
    (hsrc : src.word 2 0 < sb.ninodes) : DirBlock sb (d.copyIn (off % bsize) direntSize src) := by
  intro e he
  obtain ⟨k, rfl⟩ := hoff
  have hmod : direntSize * k % bsize = direntSize * (k % 32) := by
    simp only [direntSize, bsize]
    omega
  have hlt : k % 32 < 32 := Nat.mod_lt k (by decide)
  rw [hmod]
  simp only [direntSize, bsize] at he ⊢
  by_cases hsame : e = k % 32
  · subst hsame
    have hword : (d.copyIn (16 * (k % 32)) 16 src).word 2 (16 * (k % 32) + 0) = src.word 2 0 :=
      d.word_copyIn src (by omega) (by simp only [bsize]; omega)
    rw [Nat.add_zero] at hword
    rwa [hword]
  · rw [d.word_copyIn_of_disjoint src (by omega)]
    exact h e he

theorem writeFrom_spec (hgeo : Geometry sb) (hip : ip ∈ L) (fuel off : Nat) (src : List UInt8) :
    Spec sb clean (fun s => Harmless sb g ip off src ∧ Inv sb g L T s) (writeFrom ip fuel off src)
      fun _ => Inv sb g L T := by
  induction fuel generalizing off src with
  | zero => exact .pure fun _ hs => hs.2
  | succ fuel ih =>
    rw [writeFrom]
    refine .ite (fun _ => .pure fun _ hs => hs.2) fun hsrc => ?_
    have hbmap : ∀ t, Spec sb clean
        (fun s => Harmless sb g ip off src ∧ Inv sb g L T s ∧ (s.icache ip).type = t)
        (bmap ip (off / bsize))
        fun b s => Harmless sb g ip off src ∧ ∃ A, Sound sb A g L T s ∧ DataBlock A ip b s :=
      fun t => (bmap_spec hgeo hip (off / bsize) t).frame.post
        fun b s ⟨hharm, A, h, _, hdata⟩ => ⟨hharm, A, h, hdata⟩
    refine ((Triple.of_exists hbmap).pre fun s hs => ⟨_, hs.1, hs.2, rfl⟩).bind fun addr => ?_
    refine (bread_spec (fun _ _ hs => hs) addr).bind fun bp => ?_
    refine .bind (logWrite_spec (Q := fun s => Harmless sb g ip
      (off + min src.length (bsize - off % bsize)) (src.drop (min src.length (bsize - off % bsize))) ∧
        Inv sb g L T s) _ ?_) fun bp' => ?_
    · rintro s ⟨⟨hharm, A, h, n, hn, hdata, rfl, hne⟩, hsector, hbp⟩
      have halloc := h.cache.alloc hip
      have hbelow := (h.disk.inData _ n halloc hn hne).2.1
      -- an entry is written whole: it does not cross the end of a block
      have hwhole : direntSize ∣ off → src.length = direntSize →
          min src.length (bsize - off % bsize) = direntSize := by
        rintro ⟨k, rfl⟩ hlen
        rw [hlen]
        simp only [direntSize, bsize]
        omega
      refine ⟨?_, A, ?_⟩
      · rcases hharm with hnil | hplain | ⟨hoff, hlen, _⟩
        · exact absurd hnil hsrc
        · exact .inr (.inl hplain)
        · rw [hwhole hoff hlen, ← hlen]
          exact .inl (drop_length ..)
      · change Sound sb A g L T (logged s bp.sector (bp.data.copyIn (off % bsize)
          (min src.length (bsize - off % bsize)) fun j => src.getD j 0))
        rw [hsector, hbp]
        refine h.logged hbelow (h.disk.update_data hgeo halloc hn hdata hne fun hdir => ?_) h.cache
        rcases hharm with hnil | hplain | ⟨hoff, hlen, hinum⟩
        · exact absurd hnil hsrc
        · exact absurd hdir (h.cache.plain ip hplain).2
        · rw [hwhole hoff hlen]
          exact (h.disk.directories _ n halloc hdir hn hdata hne).copyIn hoff hinum
    · refine (brelse_spec (fun _ _ hs => hs) bp').bind fun _ => ?_
      exact ih _ _

theorem writei_spec (hgeo : Geometry sb) (hip : ip ∈ L) (src : List UInt8) (off : Nat) :
    Spec sb clean (fun s => Harmless sb g ip off src ∧ Inv sb g L T s) (writei ip src off)
      fun _ => Inv sb g L T := by
  unfold writei
  refine (getInode_spec ip).bind fun e => ?_
  refine .ite (fun _ => .ite (fun _ => ?_) fun _ => .pure fun _ hs => hs.1.2) fun _ =>
    Triple.ite (fun _ => .pure fun _ hs => hs.1.2) fun _ =>
    Triple.ite (fun _ => .pure fun _ hs => hs.1.2) fun _ => ?_
  · exact ((consolewrite_spec hgeo hip src.length).pre fun _ hs => hs.1.2).bind
      fun _ => .skip
  · refine ((writeFrom_spec hgeo hip src.length off src).pre fun _ hs => hs.1).bind fun _ => ?_
    dsimp only
    refine .ite (fun _ => ?_) fun _ => .pure fun _ hs => hs
    refine .bind (minor_spec ⟨fun _ => rfl, fun _ => rfl, fun _ => rfl, fun _ => rfl, fun _ => rfl,
      fun _ => rfl⟩) fun _ => ?_
    exact (iupdate_spec hgeo hip).bind fun _ => .skip

end RainOS.Fs
