import Mathlib.Data.Finset.Card
import RainOS.Bio.Cache

/-!
# What the buffer cache stands for

The cache and the disk together stand for one block store `V`, in which some sectors are held by
the running process (`H`) and some are changed but not yet on disk (`D`). Each function of the cache
is one operation on this view: `bread` holds a sector and returns its block, `bwrite` stores a block
and brings it to disk, `pin` stores one and leaves the disk alone, `brelse` gives the sector up. The
only ways `bread` does not return are that the sector is held already, and that it is not dirty and
the held and dirty sectors fill the cache.
-/

namespace RainOS.Bio

open List

def Agrees (V : Nat → Block) (H D : Finset Nat) (b : Buf) : Prop :=
  if b.cached then
    (b.busy = true ↔ b.sector ∈ H) ∧ (b.dirty = true ↔ b.sector ∈ D) ∧
      (b.sector ∈ H ∪ D → b.valid = true) ∧ (b.valid = true → b.data = V b.sector)
  else b.busy = false ∧ b.dirty = false

def Apart (b c : Buf) : Prop := b.cached = true → c.cached = true → b.sector ≠ c.sector

instance : Std.Symm Apart := ⟨fun _ _ h hc hb => (h hb hc).symm⟩

structure Describes (bufs : List Buf) (disk V : Nat → Block) (H D : Finset Nat) : Prop where
  length : bufs.length = nbuf
  apart : bufs.Pairwise Apart
  agrees : ∀ b ∈ bufs, Agrees V H D b
  present : ∀ s ∈ H ∪ D, ∃ b ∈ bufs, Caches s b = true
  clean : ∀ s, s ∉ D → V s = disk s

structure Held (V : Nat → Block) (D : Finset Nat) (s : Nat) (b : Buf) : Prop where
  cached : b.cached = true
  sector : b.sector = s
  busy : b.busy = true
  valid : b.valid = true
  dirty : b.dirty = true ↔ s ∈ D
  data : b.data = V s

variable {bufs bufs' rest : List Buf} {b b' c : Buf} {disk disk' V V' : Nat → Block}
  {H H' D D' : Finset Nat} {s : Nat} {m : Machine}

theorem caches_iff : Caches s b = true ↔ b.cached = true ∧ b.sector = s := by
  simp [Caches]

theorem Describes.perm (h : Describes bufs disk V H D) (hp : bufs.Perm bufs') :
    Describes bufs' disk V H D where
  length := hp.length_eq ▸ h.length
  apart := (hp.pairwise_iff fun {b c} hbc => Std.Symm.symm b c hbc).mp h.apart
  agrees b hb := h.agrees b (hp.mem_iff.mpr hb)
  present s hs := by
    obtain ⟨b, hb, hcache⟩ := h.present s hs
    exact ⟨b, hp.mem_iff.mp hb, hcache⟩
  clean := h.clean

theorem Describes.replace (h : Describes (b :: rest) disk V H D) (hcached : b'.cached = true)
    (hself : Agrees V' H' D' b') (hapart : ∀ c ∈ rest, Caches b'.sector c = false)
    (hother : ∀ s, s ≠ b'.sector → (s ∈ H' ↔ s ∈ H) ∧ (s ∈ D' ↔ s ∈ D) ∧ V' s = V s)
    (hgone : b.cached = true → b.sector ≠ b'.sector → b.sector ∉ H ∪ D)
    (hclean : ∀ s, s ∉ D' → V' s = disk' s) : Describes (b' :: rest) disk' V' H' D' where
  length := h.length
  apart := by
    refine pairwise_cons.mpr ⟨fun c hc _ hc' heq => ?_, (pairwise_cons.mp h.apart).2⟩
    have hcaches : Caches b'.sector c = true := caches_iff.mpr ⟨hc', heq.symm⟩
    rw [hapart c hc] at hcaches
    cases hcaches
  agrees := by
    intro c hc
    rcases mem_cons.mp hc with rfl | hc
    · exact hself
    · have hold := h.agrees c (mem_cons_of_mem _ hc)
      unfold Agrees at hold ⊢
      split
      · rename_i hcc
        rw [if_pos hcc] at hold
        have hne : c.sector ≠ b'.sector := by
          intro heq
          have hcaches : Caches b'.sector c = true := caches_iff.mpr ⟨hcc, heq⟩
          rw [hapart c hc] at hcaches
          cases hcaches
        obtain ⟨hH, hD, hV⟩ := hother c.sector hne
        rw [Finset.mem_union] at hold ⊢
        rw [hH, hD, hV]
        exact hold
      · rename_i hcc
        rwa [if_neg hcc] at hold
  present := by
    intro s hs
    rcases eq_or_ne s b'.sector with rfl | hne
    · exact ⟨b', mem_cons_self, caches_iff.mpr ⟨hcached, rfl⟩⟩
    · obtain ⟨hH, hD, -⟩ := hother s hne
      have hs' : s ∈ H ∪ D := by
        rw [Finset.mem_union] at hs ⊢
        rwa [← hH, ← hD]
      obtain ⟨c, hc, hcs⟩ := h.present s hs'
      obtain ⟨hcc, rfl⟩ := caches_iff.mp hcs
      rcases mem_cons.mp hc with rfl | hc
      · exact absurd hs' (hgone hcc hne)
      · exact ⟨c, mem_cons_of_mem _ hc, hcs⟩
  clean := hclean

/-! ### The list of buffers -/

theorem Describes.split (h : Describes bufs disk V H D) (hb : b ∈ bufs) (hs : Caches s b = true) :
    ∃ rest, bufs.Perm (b :: rest) ∧ ∀ c ∈ rest, Caches s c = false := by
  obtain ⟨l₁, l₂, rfl⟩ := append_of_mem hb
  have hp : (l₁ ++ b :: l₂).Perm (b :: (l₁ ++ l₂)) := perm_middle
  refine ⟨l₁ ++ l₂, hp, fun c hc => ?_⟩
  obtain ⟨hbc, rfl⟩ := caches_iff.mp hs
  have hapart := (pairwise_cons.mp (h.perm hp).apart).1 c hc hbc
  rw [Bool.eq_false_iff]
  intro hcs
  obtain ⟨hcc, heq⟩ := caches_iff.mp hcs
  exact hapart hcc heq.symm

theorem store_perm (hp : bufs.Perm (b :: rest)) (hb : Caches b'.sector b = true)
    (hrest : ∀ c ∈ rest, Caches b'.sector c = false) : (store bufs b').Perm (b' :: rest) := by
  have hmap := hp.map fun c => if Caches b'.sector c then b' else c
  have hid : rest.map (fun c => if Caches b'.sector c then b' else c) = rest := by
    conv_rhs => rw [← map_id rest]
    apply map_congr_left
    intro c hc
    simp [hrest c hc]
  rw [map_cons, if_pos hb, hid] at hmap
  exact hmap

theorem erase_perm (hp : bufs.Perm (b :: rest)) (hapart : bufs.Pairwise Apart)
    (hb : Caches s b = true) : (bufs.eraseP (Caches s)).Perm rest := by
  have hone : bufs.Pairwise fun b c => Caches s b → Caches s c → False := by
    apply hapart.imp
    intro b c hbc hb hc
    obtain ⟨hbc', heq⟩ := caches_iff.mp hb
    obtain ⟨hcc, heq'⟩ := caches_iff.mp hc
    exact hbc hbc' hcc (heq.trans heq'.symm)
  have herase := List.Perm.eraseP (Caches s) hone hp
  rwa [eraseP_cons_of_pos hb] at herase

theorem recycle_some (h : recycle s bufs = some (c, bufs')) :
    ∃ b rest, bufs.Perm (b :: rest) ∧ bufs'.Perm (c :: rest) ∧ b.busy = false ∧ b.dirty = false ∧
      c = ⟨true, s, true, false, false, b.data⟩ := by
  induction bufs generalizing bufs' with
  | nil => cases h
  | cons a as ih =>
    rw [recycle] at h
    split at h
    · rename_i c' as' has
      cases h
      obtain ⟨b, rest, hp, hp', hb⟩ := ih has
      exact ⟨b, a :: rest, (hp.cons a).trans (.swap b a rest), (hp'.cons a).trans (.swap c a rest), hb⟩
    · split at h
      · rename_i hfree
        cases h
        simp only [Bool.and_eq_true, Bool.not_eq_true'] at hfree
        exact ⟨a, as, .refl _, .refl _, hfree.1, hfree.2, rfl⟩
      · cases h

theorem recycle_none (h : recycle s bufs = none) : ∀ b ∈ bufs, b.busy = true ∨ b.dirty = true := by
  induction bufs with
  | nil => simp
  | cons a as ih =>
    rw [recycle] at h
    split at h
    · cases h
    · rename_i has
      split at h
      · cases h
      · rename_i hfree
        intro b hb
        rcases mem_cons.mp hb with rfl | hb
        · cases hbusy : b.busy <;> simp_all
        · exact ih has b hb

theorem Describes.full (h : Describes bufs disk V H D) (hnone : recycle s bufs = none) :
    nbuf ≤ (H ∪ D).card := by
  have hmem : ∀ b ∈ bufs, b.cached = true ∧ b.sector ∈ H ∪ D := by
    intro b hb
    have hagree := h.agrees b hb
    have hused := recycle_none hnone b hb
    unfold Agrees at hagree
    split at hagree
    · rename_i hcached
      rw [Finset.mem_union]
      exact ⟨hcached, hused.imp hagree.1.mp hagree.2.1.mp⟩
    · simp [hagree.1, hagree.2] at hused
  have hnodup : (bufs.map Buf.sector).Nodup := by
    rw [List.Nodup, pairwise_map]
    apply h.apart.imp_of_mem
    intro b c hb hc hbc
    exact hbc (hmem b hb).1 (hmem c hc).1
  have hsub : (bufs.map Buf.sector).toFinset ⊆ H ∪ D := by
    intro s hs
    obtain ⟨b, hb, rfl⟩ := mem_map.mp (mem_toFinset.mp hs)
    exact (hmem b hb).2
  have hcard := Finset.card_le_card hsub
  rwa [toFinset_card_of_nodup hnodup, length_map, h.length] at hcard

/-! ### The functions of the cache -/

theorem describes_binit (disk : Nat → Block) (log : Log) :
    Describes (binit disk log).bufs disk disk ∅ ∅ where
  length := length_replicate
  apart := pairwise_replicate.mpr (Or.inr fun h => by cases h)
  agrees b hb := by
    rw [(mem_replicate.mp hb).2]
    exact ⟨rfl, rfl⟩
  present s hs := by simp at hs
  clean _ _ := rfl

structure BreadPost (m : Machine) (V : Nat → Block) (H D : Finset Nat) (s : Nat) (b : Buf)
    (m' : Machine) : Prop where
  disk : m'.disk = m.disk
  log : m'.log = m.log
  free : s ∉ H
  view : Describes m'.bufs m'.disk.now V (insert s H) D
  held : Held V D s b

theorem Describes.hold (h : Describes (b :: rest) disk V H D) (hheld : Held V D s b')
    (hrest : ∀ c ∈ rest, Caches s c = false)
    (hgone : b.cached = true → b.sector ≠ s → b.sector ∉ H ∪ D) :
    Describes (b' :: rest) disk V (insert s H) D := by
  obtain ⟨hcached, rfl, hbusy, hvalid, hdirty, hdata⟩ := hheld
  apply h.replace hcached _ hrest _ hgone h.clean
  · rw [Agrees, if_pos hcached]
    exact ⟨by simp [hbusy], hdirty, fun _ => hvalid, fun _ => hdata⟩
  · intro t ht
    simp [ht]

theorem iderw_read (hbusy : b.busy = true) (hvalid : b.valid = false) (hdirty : b.dirty = false) :
    iderw b m = .ok { b with valid := true, data := m.disk.now b.sector }
      { m with bufs := store m.bufs { b with valid := true, data := m.disk.now b.sector } } := by
  simp [iderw, hbusy, hvalid, hdirty]

theorem read_spec (h : Describes (b :: rest) m.disk.now V H D) (hs : s ∉ H ∪ D)
    (hgone : b.cached = true → b.sector ≠ s → b.sector ∉ H ∪ D)
    (hrest : ∀ c ∈ rest, Caches s c = false) (hp : bufs.Perm (c :: rest))
    (hc : c.cached = true) (hsector : c.sector = s) (hbusy : c.busy = true)
    (hvalid : c.valid = false) (hdirty : c.dirty = false) :
    Ends (iderw c) { m with bufs := bufs } (BreadPost m V H D s) fun _ _ => False := by
  rw [Finset.mem_union, not_or] at hs
  subst hsector
  have hheld : Held V D c.sector { c with valid := true, data := m.disk.now c.sector } :=
    ⟨hc, rfl, hbusy, rfl, by simp [hdirty, hs.2], (h.clean _ hs.2).symm⟩
  have hstore : (store bufs { c with valid := true, data := m.disk.now c.sector }).Perm
      ({ c with valid := true, data := m.disk.now c.sector } :: rest) :=
    store_perm hp (caches_iff.mpr ⟨hc, rfl⟩) hrest
  exact .of_run_ok (iderw_read hbusy hvalid hdirty)
    ⟨rfl, rfl, hs.1, (h.hold hheld hrest hgone).perm hstore.symm, hheld⟩

theorem bread_hit (h : Describes m.bufs m.disk.now V H D) (hfind : m.bufs.find? (Caches s) = some b)
    (hb : b.busy = false) : Ends (bread s) m (BreadPost m V H D s) fun _ _ => False := by
  have hcaches := find?_some hfind
  obtain ⟨hcached, rfl⟩ := caches_iff.mp hcaches
  have hagree := h.agrees b (mem_of_find?_eq_some hfind)
  rw [Agrees, if_pos hcached] at hagree
  obtain ⟨hbusy, hdirty, hvalid, hdata⟩ := hagree
  obtain ⟨rest, hp, hrest⟩ := h.split (mem_of_find?_eq_some hfind) hcaches
  have hfree : b.sector ∉ H := by simp [← hbusy, hb]
  have hget : bget b.sector m = .ok { b with busy := true }
      { m with bufs := store m.bufs { b with busy := true } } := by simp [bget, hfind, hb]
  have hstore : (store m.bufs { b with busy := true }).Perm ({ b with busy := true } :: rest) :=
    store_perm hp hcaches hrest
  apply Ends.after_ok hget
  rcases Bool.eq_false_or_eq_true b.valid with hv | hv
  · have hheld : Held V D b.sector { b with busy := true } :=
      ⟨hcached, rfl, rfl, hv, hdirty, hdata hv⟩
    rw [if_pos hv]
    exact .pure ⟨rfl, rfl, hfree,
      ((h.perm hp).hold hheld hrest fun _ hne => absurd rfl hne).perm hstore.symm, hheld⟩
  · have hs : b.sector ∉ H ∪ D := fun hin => by simp [hvalid hin] at hv
    have hclean : b.dirty = false := by
      rw [Bool.eq_false_iff, Ne, hdirty]
      exact fun hin => hs (Finset.mem_union_right _ hin)
    rw [if_neg (by simp [hv])]
    exact read_spec (h.perm hp) hs (fun _ hne => absurd rfl hne) hrest hstore hcached rfl rfl hv hclean

theorem bread_spec (h : Describes m.bufs m.disk.now V H D) (s : Nat) :
    Ends (bread s) m (BreadPost m V H D s)
      fun _ m' => m' = m ∧ (s ∈ H ∨ s ∉ D ∧ nbuf ≤ (H ∪ D).card) := by
  cases hfind : m.bufs.find? (Caches s) with
  | some b =>
    cases hb : b.busy with
    | true =>
      have hget : bget s m = .error .asleep m := by simp [bget, hfind, hb]
      have hagree := h.agrees b (mem_of_find?_eq_some hfind)
      obtain ⟨hcached, rfl⟩ := caches_iff.mp (find?_some hfind)
      rw [Agrees, if_pos hcached] at hagree
      exact .after_error hget ⟨rfl, Or.inl (hagree.1.mp hb)⟩
    | false => exact (bread_hit h hfind hb).returns
  | none =>
    have hfree : ∀ b ∈ m.bufs, Caches s b = false := by simpa using hfind
    have hs : s ∉ H ∪ D := by
      intro hin
      obtain ⟨b, hb, hcaches⟩ := h.present s hin
      rw [hfree b hb] at hcaches
      cases hcaches
    cases hrec : recycle s m.bufs with
    | none =>
      have hget : bget s m = .error (.panic "bget: no buffers") m := by simp [bget, hfind, hrec]
      exact .after_error hget
        ⟨rfl, Or.inr ⟨fun hin => hs (Finset.mem_union_right _ hin), h.full hrec⟩⟩
    | some r =>
      obtain ⟨c, bufs⟩ := r
      have hget : bget s m = .ok c { m with bufs := bufs } := by simp [bget, hfind, hrec]
      obtain ⟨b, rest, hp, hp', hbusy, hdirty, rfl⟩ := recycle_some hrec
      have hview := h.perm hp
      have hgone : b.cached = true → b.sector ≠ s → b.sector ∉ H ∪ D := by
        intro hcached _ hin
        have hagree := hview.agrees b mem_cons_self
        rw [Agrees, if_pos hcached, hbusy, hdirty] at hagree
        rcases Finset.mem_union.mp hin with hin | hin
        · exact Bool.false_ne_true (hagree.1.mpr hin)
        · exact Bool.false_ne_true (hagree.2.1.mpr hin)
      exact .after_ok hget (read_spec hview hs hgone
        (fun c hc => hfree c (hp.mem_iff.mpr (mem_cons_of_mem _ hc))) hp' rfl rfl rfl rfl
        rfl).returns

structure HeldPost (m : Machine) (V : Nat → Block) (H D : Finset Nat) (disk : Recorded Nat Block)
    (m' : Machine) : Prop where
  disk : m'.disk = disk
  log : m'.log = m.log
  view : Describes m'.bufs m'.disk.now V H D

theorem Describes.update (h : Describes bufs disk V H D) (hs : s ∈ H) (hcached : b.cached = true)
    (hsector : b.sector = s) (hself : Agrees V' H' D' b)
    (hother : ∀ t, t ≠ s → (t ∈ H' ↔ t ∈ H) ∧ (t ∈ D' ↔ t ∈ D) ∧ V' t = V t)
    (hclean : ∀ t, t ∉ D' → V' t = disk' t) :
    Describes (store bufs b) disk' V' H' D' ∧
      Describes (b :: bufs.eraseP (Caches s)) disk' V' H' D' := by
  subst hsector
  obtain ⟨c, hc, hcaches⟩ := h.present b.sector (Finset.mem_union_left _ hs)
  obtain ⟨rest, hp, hrest⟩ := h.split hc hcaches
  have hnew : Describes (b :: rest) disk' V' H' D' :=
    (h.perm hp).replace hcached hself hrest hother
      (fun _ hne => absurd (caches_iff.mp hcaches).2 hne) hclean
  exact ⟨hnew.perm (store_perm hp hcaches hrest).symm,
    hnew.perm ((erase_perm hp h.apart hcaches).cons b).symm⟩

theorem bwrite_spec (h : Describes m.bufs m.disk.now V H D) (hs : s ∈ H) (hheld : Held V D s b)
    (v : Block) :
    Ends (bwrite { b with data := v }) m
      (fun b' m' => HeldPost m (Function.update V s v) H (D.erase s) (m.disk.write s v) m' ∧
        Held (Function.update V s v) (D.erase s) s b') fun _ _ => False := by
  obtain ⟨hcached, rfl, hbusy, -, -, -⟩ := hheld
  have hrun : bwrite { b with data := v } m = .ok { b with valid := true, dirty := false, data := v }
      { m with
        disk := m.disk.write b.sector v
        bufs := store m.bufs { b with valid := true, dirty := false, data := v } } := by
    simp [bwrite, iderw, hbusy]
  refine .of_run_ok hrun ⟨⟨rfl, rfl, ?_⟩, ⟨hcached, rfl, hbusy, rfl, by simp, by simp⟩⟩
  refine (h.update (b := { b with valid := true, dirty := false, data := v }) hs hcached rfl
    ?_ ?_ ?_).1
  · rw [Agrees, if_pos hcached]
    exact ⟨by simp [hbusy, hs], by simp, fun _ => rfl, fun _ => by simp⟩
  · intro t ht
    simp [ht]
  · intro t ht
    rw [Recorded.now_write]
    rcases eq_or_ne t b.sector with rfl | hne
    · simp
    · rw [Function.update_of_ne hne, Function.update_of_ne hne]
      exact h.clean t fun hin => ht (Finset.mem_erase.mpr ⟨hne, hin⟩)

theorem brelse_spec (h : Describes m.bufs m.disk.now V H D) (hs : s ∈ H) (hheld : Held V D s b) :
    Ends (brelse b) m (fun _ m' => HeldPost m V (H.erase s) D m.disk m') fun _ _ => False := by
  obtain ⟨hcached, rfl, hbusy, hvalid, hdirty, hdata⟩ := hheld
  have hrun : brelse b m = .ok ()
      { m with bufs := { b with busy := false } :: m.bufs.eraseP (Caches b.sector) } := by
    simp [brelse, hbusy]
  refine .of_run_ok hrun ⟨rfl, rfl, ?_⟩
  refine (h.update (b := { b with busy := false }) hs hcached rfl ?_ ?_ h.clean).2
  · rw [Agrees, if_pos hcached]
    exact ⟨by simp, hdirty, fun _ => hvalid, fun _ => hdata⟩
  · intro t ht
    simp [ht]

end RainOS.Bio
