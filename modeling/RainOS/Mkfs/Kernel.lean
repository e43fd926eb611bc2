import RainOS.Fs.Run
import RainOS.Mkfs.Regions

/-!
# The kernel on an image

What `mkfs` writes for files that fit is a disk that nothing is wrong with, as the kernel reads it. So all that holds
in every run of the file system from such a disk holds in the runs from the image.
-/

namespace RainOS.Mkfs

open Fs List

variable {s : Host} {f root : Node} {rest : List Node} {i n n' bn : Nat} {args : List Input} {l : List UInt8}

theorem lt_of_getD_ne {l : List Nat} (h : l.getD n 0 ≠ 0) : n < l.length :=
  Nat.lt_of_not_le fun hle => h (getD_eq_default _ _ hle)

section

variable (h : f.Stored s) (haddrs : ∀ k ≤ ndirect, (dinodeAt s.image i).addrs k = f.dinode.addrs k)
include h haddrs

theorem entry_cases (hn : n < entryCount) :
    n = ndirect ∧ entry (dinodeAt s.image) s.image i n = f.indirect ∨
      ∃ bn, n = dataIndex bn ∧ entry (dinodeAt s.image) s.image i n = f.data.getD bn 0 := by
  obtain hlt | rfl | hgt := Nat.lt_trichotomy n ndirect
  · refine .inr ⟨n, (if_pos hlt).symm, ?_⟩
    rw [entry_of_le _ _ _ hlt.le, haddrs n hlt.le]
    exact if_neg hlt.ne
  · exact .inl ⟨rfl, (entry_of_le _ _ _ (Nat.le_refl _)).trans (haddrs _ (Nat.le_refl _))⟩
  · have hblock := blockOf_eq h haddrs (n := n - 1) (by simp only [entryCount] at hn; simp only [maxfile]; omega)
    unfold blockOf at hblock
    dsimp only at hblock
    rw [if_neg (by omega)] at hblock
    refine .inr ⟨n - 1, ?_, ?_⟩
    · rw [dataIndex, if_neg (by omega), Nat.sub_add_cancel (by omega)]
    · rw [entry, if_neg (by omega), Nat.add_comm ndirect, Nat.sub_add_eq, hblock]

theorem entry_mem (hn : n < entryCount) (hne : entry (dinodeAt s.image) s.image i n ≠ 0) :
    entry (dinodeAt s.image) s.image i n ∈ f.blocks := by
  obtain ⟨-, heq⟩ | ⟨bn, -, heq⟩ := entry_cases h haddrs hn
  · rw [heq] at hne ⊢
    exact h.indirect_mem hne
  · rw [heq] at hne ⊢
    exact Node.data_sub (Node.getD_mem (lt_of_getD_ne hne))

theorem entry_inj (hn : n < entryCount) (hn' : n' < entryCount) (hne : entry (dinodeAt s.image) s.image i n ≠ 0)
    (heq : entry (dinodeAt s.image) s.image i n = entry (dinodeAt s.image) s.image i n') : n = n' := by
  have hapart : ∀ {bn}, f.indirect ≠ 0 → f.indirect ≠ f.data.getD bn 0 := fun hne heq =>
    h.indirect_not_mem hne (heq ▸ Node.getD_mem (lt_of_getD_ne (heq ▸ hne)))
  obtain ⟨rfl, h₁⟩ | ⟨bn, rfl, h₁⟩ := entry_cases h haddrs hn <;>
    obtain ⟨rfl, h₂⟩ | ⟨bn', rfl, h₂⟩ := entry_cases h haddrs hn' <;> rw [h₁] at hne <;> rw [h₁, h₂] at heq
  · exact absurd heq (hapart hne)
  · exact absurd heq.symm (hapart (heq ▸ hne))
  · have hlt := lt_of_getD_ne hne
    have hlt' := lt_of_getD_ne (heq ▸ hne)
    rw [getD_eq_getElem _ _ hlt, getD_eq_getElem _ _ hlt'] at heq
    rw [(h.data_nodup.getElem_inj_iff).mp heq]

end

/-- An inode in use is the root directory's or a file's. -/
theorem Made.node (h : Made args s root rest) (hi : Alloc superblock (dinodeAt s.image) i) :
    ∃ j f, i = j + 1 ∧ (root :: rest)[j]? = some f ∧ (dinodeAt s.image i).type = f.type ∧
      ∀ k ≤ ndirect, (dinodeAt s.image i).addrs k = f.dinode.addrs k := by
  have hin : ¬(i = 0 ∨ rest.length + 1 < i) := fun hout => hi.2 (h.unused i hi.1 hout).type
  obtain _ | _ | j := i
  · exact absurd (.inl rfl) hin
  · exact ⟨0, root, rfl, rfl, h.rootInode.type, h.rootInode.addrs⟩
  · have hf : rest[j]? = some rest[j] := getElem?_eq_getElem (by omega)
    exact ⟨j + 1, rest[j], rfl, hf, (h.inode j _ hf).type, (h.inode j _ hf).addrs⟩

/-- The entries name inodes that exist. -/
def Named (l : List UInt8) : Prop :=
  ∀ e, (l.getD (direntSize * e) 0).toNat + 256 * (l.getD (direntSize * e + 1) 0).toNat < ninodes

theorem Named.cons (h : Named l) {de : Dirent} (hde : de.inum < ninodes) : Named (de.bytes ++ l) := by
  intro e
  have hlen := Dirent.length_bytes de
  simp only [direntSize] at hlen ⊢
  cases e with
  | zero =>
    rw [getD_append _ _ _ _ (by omega), getD_append _ _ _ _ (by omega)]
    change (UInt8.ofNat de.inum).toNat + 256 * (UInt8.ofNat (de.inum / 256)).toNat < ninodes
    simp only [UInt8.toNat_ofNat', ninodes] at hde ⊢
    omega
  | succ e =>
    rw [getD_append_right _ _ _ _ (by omega), getD_append_right _ _ _ _ (by omega), hlen,
      show 16 * (e + 1) - 16 = 16 * e by omega, show 16 * (e + 1) + 1 - 16 = 16 * e + 1 by omega]
    exact h e

theorem named_rootEntries (h : n + args.length ≤ ninodes) : Named (rootEntries n args) := by
  induction args generalizing n with
  | nil =>
    intro e
    rw [rootEntries, getD_nil, getD_nil]
    decide
  | cons a args ih =>
    rw [length_cons] at h
    exact (ih (by omega)).cons (show n < ninodes by omega)

theorem dirBlock_of_named {b : Block} (h : Named l) (hb : ∀ k < bsize, b.mem k = l.getD (bsize * n + k) 0) :
    DirBlock superblock b := by
  intro e he
  simp only [bsize, direntSize] at hb he
  have hword := h (32 * n + e)
  simp only [direntSize] at hword
  change (b.mem (16 * e)).toNat + 256 * ((b.mem (16 * e + 1)).toNat + 256 * 0) < ninodes
  rw [hb _ (by omega), hb _ (by omega), ← Nat.add_assoc, show 512 * n + 16 * e = 16 * (32 * n + e) by omega]
  exact hword

theorem Made.consistent (h : Made args s root rest) (hfew : args.length + 1 < ninodes) (hblocks : blocksNeeded args ≤ nblocks)
    (hzero : ∀ b, s.freeblock ≤ b → s.image b = fun _ => 0) : Consistent superblock s.image := by
  have hcount := h.count
  have hdata : firstData + nblocks = superblock.logStart := by decide
  have hused : ∀ b < s.freeblock, used superblock s.image b = true := by
    intro b hb
    have hbound : b < 1024 := Nat.lt_of_lt_of_le hb h.bound
    have hblock : bblock b superblock.ninodes = ninodes / ipb + 3 := by
      change b / 4096 + 200 / 8 + 3 = 200 / 8 + 3
      omega
    rw [used, hblock, Nat.mod_eq_of_lt (Nat.lt_trans hbound (by decide)), h.bitmap, decide_eq_true hb]
  refine ⟨⟨by decide, by decide, by decide⟩, ⟨h.super, fun b hb => hused b ?_, fun i hi => ⟨rfl, fun _ _ => .inl rfl⟩,
    fun i n i' n' hi hi' hn hn' hne heq => ?_, fun i n hi hn hne => ?_, fun i n hi htype hn hnot hne => ?_⟩, ?_⟩
  · change b < firstData at hb
    omega
  · obtain ⟨j, f, rfl, hf, -, haddrs⟩ := h.node hi
    obtain ⟨j', f', rfl, hf', -, haddrs'⟩ := h.node hi'
    have hstored := h.stored f (mem_of_getElem? hf)
    have hmem := entry_mem hstored haddrs hn hne
    have hj : j = j' := by
      by_contra hjj
      refine h.apart j j' f f' hf hf' hjj _ hmem ?_
      rw [heq] at hne ⊢
      exact entry_mem (h.stored f' (mem_of_getElem? hf')) haddrs' hn' hne
    subst hj
    exact ⟨rfl, entry_inj hstored haddrs hn hn' hne heq⟩
  · obtain ⟨j, f, rfl, hf, -, haddrs⟩ := h.node hi
    have hrange := (h.stored f (mem_of_getElem? hf)).range _ (entry_mem (h.stored f (mem_of_getElem? hf)) haddrs hn hne)
    exact ⟨hrange.1, by omega, hused _ hrange.2⟩
  · obtain ⟨j, f, rfl, hf, htype', haddrs⟩ := h.node hi
    have hroot : f = root := by
      cases j with
      | zero => exact (Option.some.inj hf).symm
      | succ j =>
        rw [htype', h.type f (mem_of_getElem? hf)] at htype
        exact absurd htype (by decide)
    subst hroot
    have hstored := h.stored f mem_cons_self
    obtain ⟨rfl, -⟩ | ⟨bn, -, heq⟩ := entry_cases hstored haddrs hn
    · exact absurd rfl hnot
    · rw [heq] at hne ⊢
      refine dirBlock_of_named (n := bn) ?_ (hstored.content bn (lt_of_getD_ne hne))
      rw [h.rootBytes, append_assoc]
      exact ((named_rootEntries (by omega)).cons (by decide)).cons (by decide)
  · rw [hzero _ (by omega)]
    rfl

theorem main_zero (hfew : args.length + 1 < ninodes) :
    Ends (main args) start (fun _ s => ∀ b, s.freeblock ≤ b → s.image b = fun _ => 0) fun _ _ => True := by
  refine main_start args (.bind (ialloc_spec good_laidOut (by decide) (by decide)).returns fun inum s₁ hr => ?_)
  obtain ⟨rfl, h₁⟩ := hr
  refine .after_ok (assert_run rfl) ?_
  refine .bind ((iappend_spec h₁ (i := 0) rfl _).stop fun _ _ _ => trivial) fun _ s₂ ⟨root₂, _, _, h₂⟩ => ?_
  refine .bind ((iappend_spec h₂ (i := 0) rfl _).stop fun _ _ _ => trivial) fun _ s₃ ⟨root₃, _, _, h₃⟩ => ?_
  have h₃' : Good s₃ (root₃ :: []) := h₃
  refine .bind ((addFiles_spec h₃' (by rw [length_nil]; omega)).stop fun _ _ _ => trivial) fun _ s₄ ⟨root, rest, hadded⟩ => ?_
  refine (finish_spec hadded.good).mono (fun _ s₅ hr b hb => ?_) fun _ _ _ => trivial
  obtain ⟨d, rfl, -⟩ := hr
  have habove := hadded.good.tidy.above
  have hlow : i2b rootino < firstData := i2b_lt (by decide)
  have hbitmap : ninodes / ipb + 3 < firstData := by decide
  change s₄.freeblock ≤ b at hb
  rw [Host.put_of_ne (by omega)]
  exact (Host.put_of_ne (by omega)).trans (hadded.good.tidy.zero b hb)

theorem consistent_image (h : Fit args) : ∃ s, main args start = .ok () s ∧ Consistent superblock s.image := by
  obtain ⟨s, root, rest, hrun, hmade⟩ := h.made
  exact ⟨s, hrun, hmade.consistent h.few h.blocks ((main_zero h.few).of_ok hrun)⟩

/-- The disk stays sound in every run of the kernel from the image for files that fit, as long as `balloc` finds free data
blocks. -/
theorem kernel_on_image (h : Fit args) : ∃ s, main args start = .ok () s ∧ Consistent superblock s.image ∧
    ∀ k, (Fs.system s.image).Reachable k → k.halt = none → (∀ c ∈ k.state.ballocs, c.Met superblock) →
      DiskSound superblock (dinodeAt k.state.blk) k.state.blk := by
  obtain ⟨s, hrun, hdisk⟩ := consistent_image h
  refine ⟨s, hrun, hdisk, ?_⟩
  intro k hk hrunning hmet
  have hgood := good_of_reachable True hdisk.geometry (fun _ => hdisk) hk
  obtain ⟨_, _, A, hsound⟩ := hgood.idle hrunning ⟨trivial, hmet⟩
  apply hsound.disk.forget hdisk.geometry
  exact fun _ _ => .inr rfl

theorem kernel_on_image_thirty : ∃ s, main thirty start = .ok () s ∧ Consistent superblock s.image := by
  obtain ⟨s, hrun, hdisk, -⟩ := kernel_on_image fit_thirty
  exact ⟨s, hrun, hdisk⟩

/-- The first call of `balloc` that gives a block outside of the data region, or panics while a data block is free, is the
first that finds free blocks in the log only. -/
theorem balloc_on_image (h : Fit args) : ∃ s, main args start = .ok () s ∧
    ∀ k, (Fs.system s.image).Reachable k → ∀ before c after, k.state.ballocs = before ++ c :: after →
      (∀ c' ∈ before, c'.Met superblock) → (c.Right superblock ↔ c.Met superblock) := by
  obtain ⟨s, hrun, hdisk⟩ := consistent_image h
  refine ⟨s, hrun, ?_⟩
  intro k hk
  have hgood := good_of_reachable True hdisk.geometry (fun _ => hdisk) hk
  exact hgood.always.judged trivial

theorem balloc_on_image_thirty : ∃ s, main thirty start = .ok () s ∧
    ∀ k, (Fs.system s.image).Reachable k → ∀ c, k.state.ballocs = [c] → (c.Right superblock ↔ c.Met superblock) := by
  obtain ⟨s, hrun, hright⟩ := balloc_on_image fit_thirty
  refine ⟨s, hrun, ?_⟩
  intro k hk c hc
  apply hright k hk [] c [] hc
  simp

end RainOS.Mkfs
