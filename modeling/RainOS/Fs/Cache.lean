import RainOS.Fs.Disk
import RainOS.Fs.Inode
import RainOS.Lib.Tally
import Mathlib.Data.Multiset.Count

/-!
# A sound inode cache

The slots of the inode cache against the inode table: no inode has two slots, a slot is counted at
least as often as open files, current directories and the running call refer to it, a locked slot is
valid and holds a copy of its inode, and a file open for writing is not a directory. `L` are the slots
the running call has locked, `T` those it holds a reference to.
-/

namespace RainOS.Fs

open Function Multiset

/-- What a proof knows about the state besides the inode table: slots that are held and known to be no
directories, the file table, the current directories, and those among them whose reference the process
still has. -/
structure Ghost where
  plain : Set Slot
  files : Fin nfile → File
  cwds : Fin nproc → Option Slot
  claims : Fin nproc → Option Slot

def File.Holds (ip : Slot) (f : File) : Prop := f.type = .inode ∧ f.ip = ip

instance (ip : Slot) : DecidablePred (File.Holds ip) := fun f =>
  inferInstanceAs (Decidable (f.type = .inode ∧ f.ip = ip))

def holders (g : Ghost) (T : Multiset Slot) (ip : Slot) : Nat :=
  tally (File.Holds ip) g.files + tally (· = some ip) g.claims + T.count ip

def NotDir (A : Table) (i : Nat) : Prop := (A i).type ≠ 0 ∧ (A i).type ≠ tDir

structure CacheSound (sb : Superblock) (A : Table) (g : Ghost) (L T : Multiset Slot)
    (icache : Slot → Inode) : Prop where
  nodup : L.Nodup
  busy : ∀ ip, (icache ip).busy = true ↔ ip ∈ L
  valid : ∀ ip, (icache ip).valid = true ↔ ip ∈ L
  refs : ∀ ip, (holders g T ip : Int) ≤ (icache ip).ref
  kept : ∀ ip, ip ∈ L ∨ ip ∈ g.plain → 0 < holders g T ip
  single : ∀ ip ip', 0 < (icache ip).ref → 0 < (icache ip').ref → (icache ip).inum = (icache ip').inum →
    ip = ip'
  inRange : ∀ ip, 0 < (icache ip).ref → (icache ip).inum < sb.ninodes
  copy : ∀ ip ∈ L, (A (icache ip).inum).type ≠ 0 ∧ (icache ip).type = (A (icache ip).inum).type ∧
    ∀ k ≤ ndirect, (icache ip).addrs k = (A (icache ip).inum).addrs k
  plain : ∀ ip ∈ g.plain, NotDir A (icache ip).inum
  files : ∀ f, (g.files f).type = .inode → (g.files f).writable = true →
    NotDir A (icache (g.files f).ip).inum

variable {sb : Superblock} {A A' : Table} {g g' : Ghost} {L T L' T' : Multiset Slot} {icache : Slot → Inode}
  {ip x : Slot} {d : Dinode}

theorem holders_cons (g : Ghost) (T : Multiset Slot) (ip ip' : Slot) :
    holders g (ip ::ₘ T) ip' = holders g T ip' + if ip' = ip then 1 else 0 := by
  rw [holders, holders, count_cons, ← Nat.add_assoc]

theorem holders_pos_of_mem (h : ip ∈ T) : 0 < holders g T ip := by
  have hpos := count_pos.mpr h
  rw [holders]
  omega

theorem holders_pos_of_file {f : Fin nfile} (h : (g.files f).type = .inode) :
    0 < holders g T (g.files f).ip := by
  have hpos : 0 < tally (File.Holds (g.files f).ip) g.files := tally_pos (i := f) ⟨h, rfl⟩
  rw [holders]
  omega

theorem holders_pos_of_claim {p : Fin nproc} (h : g.claims p = some ip) : 0 < holders g T ip := by
  have hpos : 0 < tally (· = some ip) g.claims := tally_pos (i := p) h
  rw [holders]
  omega

namespace CacheSound

section

variable (h : CacheSound sb A g L T icache)
include h

theorem ref_pos (hpos : 0 < holders g T ip) :
    0 < (icache ip).ref := by
  have hle := h.refs ip
  omega

theorem alloc (hip : ip ∈ L) : Alloc sb A (icache ip).inum :=
  ⟨h.inRange ip (h.ref_pos (h.kept ip (.inl hip))), (h.copy ip hip).1⟩

theorem table (htype : ∀ i < sb.ninodes, (A i).type ≠ 0 → (A' i).type = (A i).type) (haddrs : ∀ ip ∈ L, ∀ k ≤ ndirect,
      (A' (icache ip).inum).addrs k = (A (icache ip).inum).addrs k) :
    CacheSound sb A' g L T icache := by
  have hnotDir : ∀ ip, 0 < (icache ip).ref → NotDir A (icache ip).inum →
      NotDir A' (icache ip).inum := by
    intro ip hpos hplain
    rwa [NotDir, htype _ (h.inRange ip hpos) hplain.1]
  refine { h with copy := ?_, plain := ?_, files := ?_ }
  · intro ip hip
    obtain ⟨hne, ht, ha⟩ := h.copy ip hip
    have hsame := htype _ (h.alloc hip).1 hne
    refine ⟨by rwa [hsame], by rw [hsame, ht], fun k hk => ?_⟩
    rw [haddrs ip hip k hk, ha k hk]
  · intro ip hip
    exact hnotDir ip (h.ref_pos (h.kept ip (.inr hip))) (h.plain ip hip)
  · intro f hf hwritable
    exact hnotDir _ (h.ref_pos (holders_pos_of_file hf)) (h.files f hf hwritable)

/-- A write to the slot of one inode, with what is then locked and held. The table may change where
no other locked inode is. -/
theorem write {e : Inode} (htype : ∀ i < sb.ninodes, (A i).type ≠ 0 → (A' i).type = (A i).type)
    (haddrs : ∀ x ∈ L', x ≠ ip → ∀ k ≤ ndirect, (A' (icache x).inum).addrs k = (A (icache x).inum).addrs k)
    (hinum : e.inum = (icache ip).inum) (hnodup : L'.Nodup) (hL : ∀ x ≠ ip, x ∈ L' ↔ x ∈ L)
    (hbusy : e.busy = true ↔ ip ∈ L') (hvalid : e.valid = true ↔ ip ∈ L')
    (hT : ∀ x ≠ ip, holders g T' x = holders g T x) (href : (holders g T' ip : Int) ≤ e.ref)
    (hpos : 0 < e.ref → 0 < (icache ip).ref) (hkept : ip ∈ L' ∨ ip ∈ g.plain → 0 < holders g T' ip)
    (hcopy : ip ∈ L' → (A' e.inum).type ≠ 0 ∧ e.type = (A' e.inum).type ∧
      ∀ k ≤ ndirect, e.addrs k = (A' e.inum).addrs k) :
    CacheSound sb A' g L' T' (update icache ip e) := by
  have hsame : ∀ x, (update icache ip e x).inum = (icache x).inum := by
    intro x
    by_cases hx : x = ip
    · rw [hx, update_self, hinum]
    · rw [update_of_ne hx]
  have hlive : ∀ x, 0 < (update icache ip e x).ref → 0 < (icache x).ref := by
    intro x hx'
    by_cases hx : x = ip
    · rw [hx, update_self] at hx'
      rw [hx]
      exact hpos hx'
    · rwa [update_of_ne hx] at hx'
  have hnotDir : ∀ x, 0 < (icache x).ref → NotDir A (icache x).inum → NotDir A' (icache x).inum := by
    intro x hx hplain
    rwa [NotDir, htype _ (h.inRange x hx) hplain.1]
  refine ⟨hnodup, ?_, ?_, ?_, ?_, ?_, ?_, ?_, ?_, ?_⟩
  · intro x
    by_cases hx : x = ip
    · rw [hx, update_self, hbusy]
    · rw [update_of_ne hx, hL x hx, h.busy x]
  · intro x
    by_cases hx : x = ip
    · rw [hx, update_self, hvalid]
    · rw [update_of_ne hx, hL x hx, h.valid x]
  · intro x
    by_cases hx : x = ip
    · rw [hx, update_self]
      exact href
    · rw [update_of_ne hx, hT x hx]
      exact h.refs x
  · intro x hx'
    by_cases hx : x = ip
    · rw [hx] at hx' ⊢
      exact hkept hx'
    · rw [hT x hx]
      exact h.kept x (hx'.imp_left (hL x hx).mp)
  · intro x x' hx hx' heq
    rw [hsame, hsame] at heq
    exact h.single x x' (hlive x hx) (hlive x' hx') heq
  · intro x hx
    rw [hsame]
    exact h.inRange x (hlive x hx)
  · intro x hx'
    by_cases hx : x = ip
    · rw [hx, update_self]
      exact hcopy (hx ▸ hx')
    · obtain ⟨hne, ht, ha⟩ := h.copy x ((hL x hx).mp hx')
      have hkeep := htype _ (h.alloc ((hL x hx).mp hx')).1 hne
      rw [update_of_ne hx, hkeep]
      refine ⟨hne, ht, fun k hk => ?_⟩
      rw [haddrs x hx' hx k hk, ha k hk]
  · intro x hx
    rw [hsame]
    exact hnotDir x (h.ref_pos (h.kept x (.inr hx))) (h.plain x hx)
  · intro f hf hwritable
    rw [hsame]
    exact hnotDir _ (h.ref_pos (holders_pos_of_file hf)) (h.files f hf hwritable)

theorem ghost (hle : ∀ x, holders g' T' x ≤ holders g T x)
    (hkept : ∀ x, x ∈ L ∨ x ∈ g'.plain → 0 < holders g' T' x) (hplain : g'.plain ⊆ g.plain)
    (hfiles : ∀ f, (g'.files f).type = .inode → (g'.files f).writable = true →
      NotDir A (icache (g'.files f).ip).inum) : CacheSound sb A g' L T' icache where
  nodup := h.nodup
  busy := h.busy
  valid := h.valid
  refs x := le_trans (Int.ofNat_le.mpr (hle x)) (h.refs x)
  kept := hkept
  single := h.single
  inRange := h.inRange
  copy := h.copy
  plain x hx := h.plain x (hplain hx)
  files := hfiles

theorem dup (hpos : 0 < (icache ip).ref) :
    CacheSound sb A g L (ip ::ₘ T)
      (update icache ip { icache ip with ref := (icache ip).ref + 1 }) := by
  have hself : holders g (ip ::ₘ T) ip = holders g T ip + 1 := by rw [holders_cons, if_pos rfl]
  refine h.write (fun _ _ _ => rfl) (fun _ _ _ _ _ => rfl) rfl h.nodup (fun _ _ => Iff.rfl) (h.busy ip) (h.valid ip) ?_ ?_ (fun _ => hpos) ?_
    (h.copy ip)
  · intro x hx
    rw [holders_cons, if_neg hx, Nat.add_zero]
  · have hle := h.refs ip
    rw [hself]
    show ((holders g T ip + 1 : Nat) : Int) ≤ (icache ip).ref + 1
    omega
  · intro _
    omega

end

theorem put (h : CacheSound sb A g L (ip ::ₘ T) icache) (hkept : ∀ x, x ∈ L ∨ x ∈ g.plain → x ∈ T) :
    CacheSound sb A g L T (update icache ip { icache ip with ref := (icache ip).ref - 1 }) := by
  have hself : holders g (ip ::ₘ T) ip = holders g T ip + 1 := by rw [holders_cons, if_pos rfl]
  refine h.write (fun _ _ _ => rfl) (fun _ _ _ _ _ => rfl) rfl h.nodup (fun _ _ => Iff.rfl) (h.busy ip) (h.valid ip) ?_ ?_ ?_
    (fun hip => holders_pos_of_mem (hkept ip hip)) (h.copy ip)
  · intro x hx
    rw [holders_cons, if_neg hx, Nat.add_zero]
  · have hle := h.refs ip
    rw [hself] at hle
    show (holders g T ip : Int) ≤ (icache ip).ref - 1
    omega
  · intro _
    exact h.ref_pos (holders_pos_of_mem (mem_cons_self ip T))

theorem take (h : CacheSound sb A g L T icache) {inum : Nat} (hinum : inum < sb.ninodes)
    (hfree : (icache ip).ref = 0)
    (hnew : ∀ x, 0 < (icache x).ref → (icache x).inum ≠ inum) :
    CacheSound sb A g L (ip ::ₘ T) (update icache ip
      { icache ip with inum := inum, ref := 1, busy := false, valid := false }) := by
  have hnone : holders g T ip = 0 := by
    have hle := h.refs ip
    omega
  have hnot : ¬ (ip ∈ L ∨ ip ∈ g.plain) := fun hip => by
    have hpos := h.kept ip hip
    omega
  have hother : ∀ x, x ∈ L ∨ x ∈ g.plain → x ≠ ip := fun x hx heq => hnot (heq ▸ hx)
  refine ⟨h.nodup, ?_, ?_, ?_, ?_, ?_, ?_, ?_, ?_, ?_⟩
  · intro x
    by_cases hx : x = ip
    · rw [hx, update_self]
      exact ⟨fun hbusy => (nomatch hbusy), fun hip => absurd (.inl hip) hnot⟩
    · rw [update_of_ne hx, h.busy x]
  · intro x
    by_cases hx : x = ip
    · rw [hx, update_self]
      exact ⟨fun hvalid => (nomatch hvalid), fun hip => absurd (.inl hip) hnot⟩
    · rw [update_of_ne hx, h.valid x]
  · intro x
    rw [holders_cons]
    by_cases hx : x = ip
    · rw [hx, update_self, if_pos rfl, hnone]
      show ((0 + 1 : Nat) : Int) ≤ 1
      decide
    · rw [update_of_ne hx, if_neg hx, Nat.add_zero]
      exact h.refs x
  · intro x hx
    rw [holders_cons]
    exact Nat.lt_of_lt_of_le (h.kept x hx) (Nat.le_add_right _ _)
  · intro x x' hx hx' heq
    by_cases hxi : x = ip <;> by_cases hxi' : x' = ip
    · rw [hxi, hxi']
    · rw [hxi, update_self, update_of_ne hxi'] at heq
      rw [update_of_ne hxi'] at hx'
      exact absurd heq.symm (hnew x' hx')
    · rw [hxi', update_self, update_of_ne hxi] at heq
      rw [update_of_ne hxi] at hx
      exact absurd heq (hnew x hx)
    · rw [update_of_ne hxi, update_of_ne hxi'] at heq
      rw [update_of_ne hxi] at hx
      rw [update_of_ne hxi'] at hx'
      exact h.single x x' hx hx' heq
  · intro x hx
    by_cases hxi : x = ip
    · rw [hxi, update_self]
      exact hinum
    · rw [update_of_ne hxi] at hx ⊢
      exact h.inRange x hx
  · intro x hx
    rw [update_of_ne (hother x (.inl hx))]
    exact h.copy x hx
  · intro x hx
    rw [update_of_ne (hother x (.inr hx))]
    exact h.plain x hx
  · intro f hf hwritable
    have hpos := holders_pos_of_file (T := T) hf
    have hne : (g.files f).ip ≠ ip := fun heq => by
      rw [heq] at hpos
      omega
    rw [update_of_ne hne]
    exact h.files f hf hwritable

theorem inum_ne (h : CacheSound sb A g L T icache) (hx : x ∈ L) (hpos : 0 < holders g T ip)
    (hne : x ≠ ip) : (icache x).inum ≠ (icache ip).inum := fun heq =>
  hne (h.single x ip (h.ref_pos (h.kept x (.inl hx))) (h.ref_pos hpos) heq)

theorem lock (h : CacheSound sb A g L T icache) (hfree : ip ∉ L) (hpos : 0 < holders g T ip) (htype : d.type = (A (icache ip).inum).type) (halloc : d.type ≠ 0) :
    CacheSound sb (update A (icache ip).inum d) g (ip ::ₘ L) T
      (update icache ip { icache ip with toDinode := d, busy := true, valid := true }) := by
  have hmem : ip ∈ ip ::ₘ L := mem_cons_self ip L
  have hL : ∀ x ≠ ip, x ∈ ip ::ₘ L ↔ x ∈ L := fun x hx => by
    rw [mem_cons]
    exact or_iff_right hx
  refine h.write ?_ ?_ rfl (nodup_cons.mpr ⟨hfree, h.nodup⟩) hL (iff_of_true rfl hmem)
    (iff_of_true rfl hmem) (fun _ _ => rfl) (h.refs ip) (fun _ => h.ref_pos hpos) (fun _ => hpos) ?_
  · intro i _ _
    by_cases hi : i = (icache ip).inum
    · rw [hi, update_self, htype]
    · rw [update_of_ne hi]
  · intro x hx hne k _
    rw [update_of_ne (h.inum_ne ((hL x hne).mp hx) hpos hne)]
  · intro _
    change (update A (icache ip).inum d (icache ip).inum).type ≠ 0 ∧
      d.type = (update A (icache ip).inum d (icache ip).inum).type ∧ _
    rw [update_self]
    exact ⟨halloc, rfl, fun _ _ => rfl⟩

theorem unlock (h : CacheSound sb A g (ip ::ₘ L) T icache) (htype : d.type = (A (icache ip).inum).type) :
    CacheSound sb (update A (icache ip).inum d) g L T
      (update icache ip { icache ip with busy := false, valid := false }) := by
  obtain ⟨hfree, hnodup⟩ := nodup_cons.mp h.nodup
  have hpos := h.kept ip (.inl (mem_cons_self ip L))
  refine h.write ?_ ?_ rfl hnodup ?_ (iff_of_false Bool.false_ne_true hfree)
    (iff_of_false Bool.false_ne_true hfree) (fun _ _ => rfl) (h.refs ip) (fun _ => h.ref_pos hpos)
    (fun _ => hpos) (fun hip => absurd hip hfree)
  · intro i _ _
    by_cases hi : i = (icache ip).inum
    · rw [hi, update_self, htype]
    · rw [update_of_ne hi]
  · intro x hx hne k _
    rw [update_of_ne (h.inum_ne (mem_cons_of_mem hx) hpos hne)]
  · intro x hx
    rw [mem_cons]
    exact (or_iff_right hx).symm

theorem modify (h : CacheSound sb A g L T icache) {e : Inode} (hinum : e.inum = (icache ip).inum)
    (href : e.ref = (icache ip).ref) (hbusy : e.busy = (icache ip).busy)
    (hvalid : e.valid = (icache ip).valid) (htype : e.type = (icache ip).type)
    (haddrs : e.addrs = (icache ip).addrs) : CacheSound sb A g L T (update icache ip e) := by
  refine h.write (fun _ _ _ => rfl) (fun _ _ _ _ _ => rfl) hinum h.nodup (fun _ _ => Iff.rfl) ?_ ?_
    (fun _ _ => rfl) ?_ ?_ (h.kept ip) ?_
  · rw [hbusy, h.busy]
  · rw [hvalid, h.valid]
  · rw [href]
    exact h.refs ip
  · rw [href]
    exact fun hpos => hpos
  · intro hip
    rw [hinum, htype, haddrs]
    exact h.copy ip hip

theorem setAddr (h : CacheSound sb A g L T icache) (hip : ip ∈ L) (k b : Nat) :
    CacheSound sb (update A (icache ip).inum ((A (icache ip).inum).setAddr k b)) g L T
      (update icache ip { icache ip with addrs := update (icache ip).addrs k b }) := by
  have hpos := h.kept ip (.inl hip)
  obtain ⟨hne, ht, ha⟩ := h.copy ip hip
  refine h.write ?_ ?_ rfl h.nodup (fun _ _ => Iff.rfl) (h.busy ip) (h.valid ip) (fun _ _ => rfl)
    (h.refs ip) (fun _ => h.ref_pos hpos) (h.kept ip) ?_
  · intro i _ _
    by_cases hi : i = (icache ip).inum
    · rw [hi, update_self, Dinode.setAddr]
    · rw [update_of_ne hi]
  · intro x hx hxi n _
    rw [update_of_ne (h.inum_ne hx hpos hxi)]
  · intro _
    change (update A (icache ip).inum _ (icache ip).inum).type ≠ 0 ∧
      (icache ip).type = (update A (icache ip).inum _ (icache ip).inum).type ∧
      ∀ n ≤ ndirect, update (icache ip).addrs k b n =
        (update A (icache ip).inum _ (icache ip).inum).addrs n
    rw [update_self]
    refine ⟨hne, ht, fun n hn => ?_⟩
    rw [Dinode.addrs_setAddr, update_apply, ha n hn]

end CacheSound

end RainOS.Fs
