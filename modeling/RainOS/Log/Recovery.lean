import Mathlib.Data.Finset.SDiff
import RainOS.Bio.Spec

/-!
# Crash atomicity of a transaction

A disk that carries a transaction is one whose header names the sectors of the transaction, whose log
blocks hold their new contents, and which is up to date everywhere else. Recovery turns such a disk
into the new image, and every disk it passes through on the way still carries the transaction. Before
its header write `commit` only changes log blocks the header does not name, and afterwards it does what
recovery does; so a crash leaves a disk that carries the empty transaction on the old image or the whole
one on the new image.
-/

namespace RainOS.Recovery

open BlockStore Function List
open Bio hiding bread bwrite brelse pin

/-! ### The header block -/

theorem word_putSectors (b : Block) {i off : Nat} (lh : List Nat) (h : off + 4 ≤ 4 + 4 * i) :
    (putSectors b i lh).word 4 off = b.word 4 off := by
  induction lh generalizing b i with
  | nil => rfl
  | cons sector rest ih =>
    rw [putSectors, ih _ (by omega), Bytes.word_setWord_of_disjoint b (Or.inl h)]

theorem headSector_putSectors (b : Block) {i : Nat} {lh : List Nat} (h : i + lh.length ≤ 127)
    {j sector : Nat} (hj : lh[j]? = some sector) :
    headSector (putSectors b i lh) (i + j) = sector % 2 ^ 32 := by
  induction lh generalizing b i j with
  | nil => cases hj
  | cons t rest ih =>
    rw [length_cons] at h
    cases j with
    | zero =>
      cases hj
      rw [Nat.add_zero, headSector, putSectors, word_putSectors _ _ (by omega),
        Bytes.word_setWord _ (show 4 + 4 * i + 4 ≤ 512 by omega)]
      rfl
    | succ j =>
      have hrest := ih (b.setWord 4 (4 + 4 * i) t) (i := i + 1) (by omega) hj
      rwa [Nat.add_right_comm, Nat.add_assoc] at hrest

theorem word_putHead (b : Block) {lh : List Nat} (h : lh.length ≤ 127) :
    (putHead b lh).word 4 0 = lh.length := by
  rw [putHead, word_putSectors _ _ (by omega), Bytes.word_setWord b (by decide)]
  exact Nat.mod_eq_of_lt (by omega)

theorem headSectors_eq_nil {b : Block} (h : b.word 4 0 = 0) : headSectors b = [] := by
  rw [headSectors, headCount, h]
  rfl

theorem headSectors_putHead (b : Block) {lh : List Nat} (h : lh.length ≤ 127)
    (hsectors : ∀ s ∈ lh, s < 2 ^ 32) : headSectors (putHead b lh) = lh := by
  rw [headSectors, headCount, word_putHead b h, if_pos (by omega)]
  apply ext_getElem?
  intro j
  rw [getElem?_map]
  rcases Nat.lt_or_ge j lh.length with hj | hj
  · have hget : lh[j]? = some lh[j] := getElem?_eq_getElem hj
    have hsector := headSector_putSectors (b.setWord 4 0 lh.length) (i := 0) (by omega) hget
    rw [Nat.zero_add, Nat.mod_eq_of_lt (hsectors _ (getElem_mem hj))] at hsector
    rw [getElem?_range hj, hget]
    exact congrArg some hsector
  · rw [getElem?_eq_none (by rwa [length_range]), getElem?_eq_none hj]
    rfl

/-! ### Disks that carry a transaction -/

def Outside (reg : Region) (s : Nat) : Prop := s < reg.start ∨ reg.start + reg.size ≤ s

instance (reg : Region) (s : Nat) : Decidable (Outside reg s) := inferInstanceAs (Decidable (_ ∨ _))

/-- A header the reg has room for: in its blocks, in the array of the header and in its words. -/
structure Fits (reg : Region) (lh : List Nat) : Prop where
  nodup : lh.Nodup
  outside : ∀ s ∈ lh, Outside reg s
  room : lh.length < reg.size
  array : lh.length ≤ logSize
  words : ∀ s ∈ lh, s < 2 ^ 32

/-- The disk holds `img` once the transaction of `lh` is installed. -/
structure Carries (reg : Region) (img : Nat → Block) (lh : List Nat) (d : Nat → Block) : Prop where
  count : (d reg.start).word 4 0 = lh.length
  head : headSectors (d reg.start) = lh
  logged : ∀ i s, lh[i]? = some s → d (reg.start + i + 1) = img s
  home : ∀ s, Outside reg s → s ∉ lh → d s = img s

/-- The disk comes back as `img` when it is recovered. -/
def Recovers (reg : Region) (img d : Nat → Block) : Prop := ∃ lh, Fits reg lh ∧ Carries reg img lh d

variable {reg : Region} {log : Log} {img old new V d : Nat → Block} {lh : List Nat} {H D : Finset Nat} {m : Machine}
  {s t i : Nat} {ws : List (Nat × Block)}

theorem Fits.outside_get (h : Fits reg lh) (hi : lh[i]? = some s) : Outside reg s :=
  h.outside s (mem_of_getElem? hi)

theorem Fits.lt_size (h : Fits reg lh) (hi : lh[i]? = some s) : i + 1 < reg.size := by
  have hlt := (List.getElem?_eq_some_iff.mp hi).1
  have hroom := h.room
  omega

theorem Fits.entries (h : Fits reg lh) : lh.length ≤ 127 := h.array.trans (by decide)

theorem Outside.ne_inside (h : Outside reg s) (ht : ¬Outside reg t) : s ≠ t :=
  fun heq => ht (heq ▸ h)

theorem not_outside_start (h : Fits reg lh) : ¬Outside reg reg.start := by
  have hroom := h.room
  unfold Outside
  omega

theorem not_outside_block (h : i + 1 < reg.size) : ¬Outside reg (reg.start + i + 1) := by
  unfold Outside
  omega

theorem Carries.install (h : Carries reg img lh d) (hfits : Fits reg lh) (hs : s ∈ lh) (v : Block) :
    Carries reg img lh (update d s v) where
  count := by
    rw [update_of_ne ((hfits.outside s hs).ne_inside (not_outside_start hfits)).symm]
    exact h.count
  head := by
    rw [update_of_ne ((hfits.outside s hs).ne_inside (not_outside_start hfits)).symm]
    exact h.head
  logged i t hi := by
    have hne := (hfits.outside s hs).ne_inside (not_outside_block (hfits.lt_size hi))
    rw [update_of_ne hne.symm]
    exact h.logged i t hi
  home t ht hmem := by
    have hne : t ≠ s := fun heq => hmem (heq ▸ hs)
    rw [update_of_ne hne]
    exact h.home t ht hmem

theorem Carries.append (h : Carries reg img [] d) (hi : i + 1 < reg.size) (v : Block) :
    Carries reg img [] (update d (reg.start + i + 1) v) where
  count := by
    rw [update_of_ne (by omega)]
    exact h.count
  head := by
    rw [update_of_ne (by omega)]
    exact h.head
  logged j t hj := by cases hj
  home t ht hmem := by
    rw [update_of_ne (ht.ne_inside (not_outside_block hi))]
    exact h.home t ht hmem

theorem carries_putHead (hfits : Fits reg lh) (b : Block)
    (hlogged : ∀ i s, lh[i]? = some s → d (reg.start + i + 1) = img s)
    (hhome : ∀ s, Outside reg s → s ∉ lh → d s = img s) :
    Carries reg img lh (update d reg.start (putHead b lh)) where
  count := by rw [update_self, word_putHead b hfits.entries]
  head := by rw [update_self, headSectors_putHead b hfits.entries hfits.words]
  logged i s hi := by
    rw [update_of_ne (by omega)]
    exact hlogged i s hi
  home s hs hmem := by
    rw [update_of_ne (hs.ne_inside (not_outside_start hfits))]
    exact hhome s hs hmem

theorem Fits.nil (h : Fits reg lh) : Fits reg [] where
  nodup := nodup_nil
  outside _ hs := by cases hs
  room := by
    have hroom := h.room
    simp only [length_nil]
    omega
  array := Nat.zero_le _
  words _ hs := by cases hs

/-! ### The loops over the cache -/

/-- A machine whose cache and disk have the view `V`, with the given in-memory log. -/
structure At (log : Log) (V : Nat → Block) (H D : Finset Nat) (m : Machine) : Prop where
  log : m.log = log
  view : Describes m.bufs m.disk.now V H D

/-- Why a copy of block `s` to or from log block `t` may not be made. -/
def Stuck (H D : Finset Nat) (s : Nat) : Prop :=
  H ≠ ∅ ∨ nbuf ≤ D.card ∨ s ∉ D ∧ nbuf ≤ D.card + 1

theorem stuck_of_first (h : t ∈ H ∨ t ∉ D ∧ nbuf ≤ (H ∪ D).card) : Stuck H D s := by
  rcases Finset.eq_empty_or_nonempty H with rfl | hH
  · rcases h with h | h
    · simp at h
    · right; left
      simpa using h.2
  · left
    exact hH.ne_empty

theorem stuck_of_second (hne : s ≠ t)
    (h : s ∈ insert t H ∨ s ∉ D ∧ nbuf ≤ (insert t H ∪ D).card) : Stuck H D s := by
  rcases Finset.eq_empty_or_nonempty H with rfl | hH
  · rcases h with h | h
    · simp [hne] at h
    · right; right
      refine ⟨h.1, h.2.trans ?_⟩
      have hcard := Finset.card_insert_le t D
      simpa using hcard
  · left
    exact hH.ne_empty

theorem bread_two (h : At log V H D m) (hne : s ≠ t) {β : Type}
    {k : Buf → Buf → EStateM Halt Machine β} {Q : β → Machine → Prop} {E : Halt → Machine → Prop}
    (hstuck : ∀ e m', m'.disk = m.disk → Stuck H D s → E e m')
    (hk : ∀ bt bs m', m'.disk = m.disk → At log V (insert s (insert t H)) D m' → t ∉ H → s ∉ H →
      Held V D t bt → Held V D s bs → Ends (k bt bs) m' Q E) :
    Ends (do
      let bt ← bread t
      let bs ← bread s
      k bt bs) m Q E := by
  apply Ends.bind ((bread_spec h.view t).stop ?_)
  · intro bt m₁ ht
    have hlog : m₁.log = log := ht.log.trans h.log
    apply Ends.bind ((bread_spec ht.view s).stop ?_)
    · intro bs m₂ hs
      have hsH : s ∉ H := fun hin => hs.free (Finset.mem_insert_of_mem hin)
      exact hk bt bs m₂ (hs.disk.trans ht.disk) ⟨hs.log.trans hlog, hs.view⟩ ht.free hsH ht.held hs.held
    · rintro e m₂ ⟨rfl, herr⟩
      exact hstuck e m₂ ht.disk (stuck_of_second hne herr)
  · rintro e m₁ ⟨rfl, herr⟩
    exact hstuck e m₁ rfl (stuck_of_first herr)

theorem erase_two (hne : s ≠ t) (hs : s ∉ H) (ht : t ∉ H) :
    ((insert s (insert t H)).erase t).erase s = H := by
  rw [Finset.erase_insert_of_ne hne, Finset.erase_insert ht, Finset.erase_insert hs]

theorem install_body (h : At log V H D m) (hne : s ≠ t) :
    Ends (do
      let lbuf ← bread t
      let dbuf ← bread s
      let dbuf ← bwrite { dbuf with data := lbuf.data }
      brelse lbuf
      brelse dbuf) m
      (fun _ m' => m'.disk = m.disk.write s (V t) ∧ At log (update V s (V t)) H (D.erase s) m')
      fun _ m' => m'.disk = m.disk ∧ Stuck H D s := by
  apply bread_two h hne fun e m' hdisk hstuck => ⟨hdisk, hstuck⟩
  intro bt bs m₂ hdisk hat ht hs hbt hbs
  have hin : s ∈ insert s (insert t H) := Finset.mem_insert_self _ _
  apply Ends.bind (bwrite_spec hat.view hin hbs bt.data).returns
  rintro bs' m₃ ⟨hpost, hbs'⟩
  have hbt' : Held (update V s bt.data) (D.erase s) t bt :=
    ⟨hbt.cached, hbt.sector, hbt.busy, hbt.valid, by simp [hbt.dirty, hne.symm],
      by rw [update_of_ne hne.symm, hbt.data]⟩
  apply Ends.bind (brelse_spec hpost.view (by simp) hbt').returns
  intro _ m₄ hpost₄
  apply (brelse_spec hpost₄.view (by simp [hne]) hbs').returns.mono _ fun _ _ hf => hf
  intro _ m₅ hpost₅
  rw [hbt.data] at hpost hpost₄ hpost₅
  refine ⟨?_, ?_, ?_⟩
  · rw [hpost₅.disk, hpost₄.disk, hpost.disk, hdisk]
  · rw [hpost₅.log, hpost₄.log, hpost.log, hat.log]
  · have hview := hpost₅.view
    rwa [erase_two hne hs ht] at hview

theorem write_body (h : At log V H D m) (hne : s ≠ t) (ht : t ∉ D) :
    Ends (do
      let toBuf ← bread t
      let fromBuf ← bread s
      let toBuf ← bwrite { toBuf with data := fromBuf.data }
      brelse fromBuf
      brelse toBuf) m
      (fun _ m' => m'.disk = m.disk.write t (V s) ∧ At log (update V t (V s)) H D m')
      fun _ m' => m'.disk = m.disk ∧ Stuck H D s := by
  apply bread_two h hne fun e m' hdisk hstuck => ⟨hdisk, hstuck⟩
  intro bt bs m₂ hdisk hat htH hs hbt hbs
  have hin : t ∈ insert s (insert t H) := by simp
  apply Ends.bind (bwrite_spec hat.view hin hbt bs.data).returns
  rintro bt' m₃ ⟨hpost, hbt'⟩
  rw [Finset.erase_eq_of_notMem ht] at hpost hbt'
  have hbs' : Held (update V t bs.data) D s bs :=
    ⟨hbs.cached, hbs.sector, hbs.busy, hbs.valid, hbs.dirty, by rw [update_of_ne hne, hbs.data]⟩
  apply Ends.bind (brelse_spec hpost.view (by simp) hbs').returns
  intro _ m₄ hpost₄
  apply (brelse_spec hpost₄.view (by simp [hne.symm]) hbt').returns.mono _ fun _ _ hf => hf
  intro _ m₅ hpost₅
  rw [hbs.data] at hpost hpost₄ hpost₅
  refine ⟨?_, ?_, ?_⟩
  · rw [hpost₅.disk, hpost₄.disk, hpost.disk, hdisk]
  · rw [hpost₅.log, hpost₄.log, hpost.log, hat.log]
  · have hview := hpost₅.view
    rwa [Finset.erase_right_comm, erase_two hne hs htH] at hview

/-! ### The functions of the log -/

def crashImage (reg : Region) (old new : Nat → Block) (ws : List (Nat × Block)) : Nat → Block :=
  if reg.start ∈ ws.map Prod.fst then new else old

/-- Wherever the writes are cut off, the disk recovers to the image the header write decides. -/
def Safe (reg : Region) (old new : Nat → Block) (d : Recorded Nat Block) : Prop :=
  d.Always fun ws d => Recovers reg (crashImage reg old new ws) d

theorem Safe.cut {d : Recorded Nat Block} (h : Safe reg old new d) (k : Nat) :
    Recovers reg (crashImage reg old new (d.writes.take k)) (d.after k) := h k

theorem crashImage_append_of_ne (v : Block) (h : s ≠ reg.start) :
    crashImage reg old new (ws ++ [(s, v)]) = crashImage reg old new ws := by
  apply if_congr _ rfl rfl
  rw [map_append, mem_append, map_singleton, mem_singleton]
  exact or_iff_left h.symm

theorem crashImage_append_start (v : Block) :
    crashImage reg old new (ws ++ [(reg.start, v)]) = new := by
  simp [crashImage]

theorem writeHead_spec (h : At log V H D m) (hD : log.start ∉ D) :
    Ends writeHead m
      (fun _ m' => m'.disk = m.disk.write log.start (putHead (V log.start) log.lh) ∧
        At log (update V log.start (putHead (V log.start) log.lh)) H D m')
      fun _ m' => m'.disk = m.disk ∧ (H ≠ ∅ ∨ nbuf ≤ D.card) := by
  have hlog : getLog m = .ok log m := congrArg (EStateM.Result.ok · m) h.log
  unfold writeHead
  apply Ends.after_ok hlog
  apply Ends.bind ((bread_spec h.view log.start).stop ?_)
  · intro b m₁ hb
    apply Ends.bind (bwrite_spec hb.view (Finset.mem_insert_self _ _) hb.held _).returns
    rintro b' m₂ ⟨hpost, hb'⟩
    apply (brelse_spec hpost.view (Finset.mem_insert_self _ _) hb').returns.mono _ fun _ _ hf => hf
    intro _ m₃ hpost₃
    rw [hb.held.data, Finset.erase_eq_of_notMem hD] at hpost hpost₃
    refine ⟨?_, ?_, ?_⟩
    · rw [hpost₃.disk, hpost.disk, hb.disk]
    · rw [hpost₃.log, hpost.log, hb.log, h.log]
    · have hview := hpost₃.view
      rwa [Finset.erase_insert hb.free] at hview
  · rintro e m₁ ⟨rfl, herr⟩
    refine ⟨rfl, ?_⟩
    rcases Finset.eq_empty_or_nonempty H with rfl | hH
    · right
      simpa [hD] using herr
    · exact Or.inl hH.ne_empty

theorem setLh_spec (h : At log V H D m) (lh : List Nat) :
    Ends (setLh lh) m (fun _ m' => m'.disk = m.disk ∧ At { log with lh := lh } V H D m')
      fun _ _ => False :=
  Ends.of_run_ok rfl ⟨rfl, congrArg (fun l : Log => { l with lh := lh }) h.log, h.view⟩

theorem readHead_spec (h : At log V ∅ ∅ m) :
    Ends readHead m
      (fun _ m' => m'.disk = m.disk ∧ At { log with lh := headSectors (V log.start) } V ∅ ∅ m')
      fun _ _ => False := by
  have hlog : getLog m = .ok log m := congrArg (EStateM.Result.ok · m) h.log
  unfold readHead
  apply Ends.after_ok hlog
  apply Ends.bind ((bread_spec h.view log.start).stop ?_)
  · intro b m₁ hb
    apply (setLh_spec ⟨hb.log.trans h.log, hb.view⟩ _).bind
    rintro _ m₂ ⟨hdisk, hat⟩
    apply (brelse_spec hat.view (Finset.mem_insert_self _ _) hb.held).mono _ fun _ _ hf => hf
    intro _ m₃ hpost
    refine ⟨?_, ?_, ?_⟩
    · rw [hpost.disk, hdisk, hb.disk]
    · rw [hpost.log, hat.log, hb.held.data]
    · have hview := hpost.view
      rwa [Finset.erase_insert hb.free] at hview
  · rintro e m₁ ⟨-, herr⟩
    simp [nbuf, maxOpBlocks] at herr

/-- `write_log` with `i` blocks done: the disk still carries nothing, and outside the log nothing has
changed. -/
structure Logged (log : Log) (old new V : Nat → Block) (H D : Finset Nat) (i : Nat) (m : Machine) :
    Prop where
  safe : Safe log.toRegion old new m.disk
  before : log.start ∉ m.disk.writes.map Prod.fst
  old : Carries log.toRegion old [] m.disk.now
  view : ∃ V', At log V' H D m ∧ (∀ s, Outside log.toRegion s → V' s = V s) ∧
    ∀ j s, j < i → log.lh[j]? = some s → V' (log.start + j + 1) = V s

theorem Logged.step (h : Logged log old new V H D i m) (hfits : Fits log.toRegion log.lh)
    (hD : ∀ s ∈ D, Outside log.toRegion s) (hi : log.lh[i]? = some s) :
    Ends (do
      let toBuf ← bread (log.start + i + 1)
      let fromBuf ← bread s
      let toBuf ← bwrite { toBuf with data := fromBuf.data }
      brelse fromBuf
      brelse toBuf) m
      (fun _ m' => Logged log old new V H D (i + 1) m')
      fun _ m' => Safe log.toRegion old new m'.disk ∧ ∃ s ∈ log.lh, Stuck H D s := by
  obtain ⟨hsafe, hbefore, hold, V₁, hat, hout, hlogged⟩ := h
  have hs := hfits.outside_get hi
  have hsize := hfits.lt_size hi
  have ht := not_outside_block hsize
  apply (write_body hat (hs.ne_inside ht) fun hin => ht (hD _ hin)).mono
  · rintro _ m' ⟨hdisk, hat'⟩
    have hne : log.start + i + 1 ≠ log.start := by omega
    have hcarries := hold.append hsize (V₁ s)
    refine ⟨?_, ?_, ?_, _, hat', ?_, ?_⟩
    · rw [hdisk]
      apply hsafe.write
      rw [crashImage_append_of_ne _ hne, crashImage, if_neg hbefore]
      exact ⟨[], hfits.nil, hcarries⟩
    · rw [hdisk]
      simpa [Recorded.write, hne.symm] using hbefore
    · rw [hdisk, Recorded.now_write]
      exact hcarries
    · intro u hu
      rw [update_of_ne (hu.ne_inside ht)]
      exact hout u hu
    · intro j u hj hu
      rcases eq_or_ne j i with rfl | hji
      · rw [update_self, hout s hs]
        rw [hi] at hu
        cases hu
        rfl
      · rw [update_of_ne (by omega)]
        exact hlogged j u (by omega) hu
  · rintro e m' ⟨hdisk, hstuck⟩
    rw [hdisk]
    exact ⟨hsafe, s, mem_of_getElem? hi, hstuck⟩

theorem writeLog_spec (h : Logged log old new V H D 0 m) (hlog : m.log = log)
    (hfits : Fits log.toRegion log.lh) (hD : ∀ s ∈ D, Outside log.toRegion s) :
    Ends writeLog m (fun _ m' => Logged log old new V H D log.lh.length m')
      fun _ m' => Safe log.toRegion old new m'.disk ∧ ∃ s ∈ log.lh, Stuck H D s := by
  have hget : getLog m = .ok log m := congrArg (EStateM.Result.ok · m) hlog
  unfold writeLog
  apply Ends.after_ok hget
  exact Ends.forM_zipIdx (Logged log old new V H D) h fun i s m hi hm => hm.step hfits hD hi

/-- `install_trans` with `i` blocks done: the disk carries the transaction, and the sectors done have
their new contents. -/
structure Installed (log : Log) (old new V : Nat → Block) (H D : Finset Nat) (i : Nat) (m : Machine) :
    Prop where
  safe : Safe log.toRegion old new m.disk
  decided : crashImage log.toRegion old new m.disk.writes = new
  carries : Carries log.toRegion new log.lh m.disk.now
  view : At log (fun s => if s ∈ log.lh.take i then new s else V s) H (D \ (log.lh.take i).toFinset) m

theorem Installed.step (h : Installed log old new V H D i m) (hfits : Fits log.toRegion log.lh)
    (hlogged : ∀ i s, log.lh[i]? = some s → V (log.start + i + 1) = new s)
    (hi : log.lh[i]? = some s) :
    Ends (do
      let lbuf ← bread (log.start + i + 1)
      let dbuf ← bread s
      let dbuf ← bwrite { dbuf with data := lbuf.data }
      brelse lbuf
      brelse dbuf) m
      (fun _ m' => Installed log old new V H D (i + 1) m')
      fun _ m' => Safe log.toRegion old new m'.disk ∧
        ∃ i s, log.lh[i]? = some s ∧ Stuck H (D \ (log.lh.take i).toFinset) s := by
  obtain ⟨hsafe, hdecided, hcarries, hat⟩ := h
  have hs := hfits.outside_get hi
  have hmem := mem_of_getElem? hi
  have ht := not_outside_block (hfits.lt_size hi)
  have htake : log.lh.take (i + 1) = log.lh.take i ++ [s] := by
    rw [take_add_one, hi]
    rfl
  have hblock : log.start + i + 1 ∉ log.lh.take i := fun hin =>
    ht (hfits.outside _ (mem_of_mem_take hin))
  apply (install_body hat (hs.ne_inside ht)).mono
  · rintro _ m' ⟨hdisk, hat'⟩
    rw [if_neg hblock, hlogged i s hi] at hdisk hat'
    have hne : s ≠ log.start := hs.ne_inside (not_outside_start hfits)
    have hcarries' := hcarries.install hfits hmem (new s)
    refine ⟨?_, ?_, ?_, hat'.log, ?_⟩
    · rw [hdisk]
      apply hsafe.write
      rw [crashImage_append_of_ne _ hne, hdecided]
      exact ⟨log.lh, hfits, hcarries'⟩
    · rw [hdisk]
      exact (crashImage_append_of_ne _ hne).trans hdecided
    · rw [hdisk, Recorded.now_write]
      exact hcarries'
    · have hview := hat'.view
      have hV : update (fun u => if u ∈ log.lh.take i then new u else V u) s (new s) =
          fun u => if u ∈ log.lh.take (i + 1) then new u else V u := by
        funext u
        rw [htake]
        rcases eq_or_ne u s with rfl | hne
        · simp
        · simp [hne]
      have hset : (D \ (log.lh.take i).toFinset).erase s = D \ (log.lh.take (i + 1)).toFinset := by
        ext u
        rw [htake]
        simp only [Finset.mem_erase, Finset.mem_sdiff, mem_toFinset, mem_append,
          mem_singleton, not_or]
        tauto
      rwa [hV, hset] at hview
  · rintro e m' ⟨hdisk, hstuck⟩
    rw [hdisk]
    exact ⟨hsafe, i, s, hi, hstuck⟩

theorem installTrans_spec (h : Installed log old new V H D 0 m) (hfits : Fits log.toRegion log.lh)
    (hlogged : ∀ i s, log.lh[i]? = some s → V (log.start + i + 1) = new s) :
    Ends installTrans m (fun _ m' => Installed log old new V H D log.lh.length m')
      fun _ m' => Safe log.toRegion old new m'.disk ∧
        ∃ i s, log.lh[i]? = some s ∧ Stuck H (D \ (log.lh.take i).toFinset) s := by
  have hget : getLog m = .ok log m := congrArg (EStateM.Result.ok · m) h.view.log
  unfold installTrans
  apply Ends.after_ok hget
  exact Ends.forM_zipIdx (Installed log old new V H D) h fun i s m hi hm => hm.step hfits hlogged hi

theorem clear_spec (h : Installed log old new V H D log.lh.length m) (hfits : Fits log.toRegion log.lh)
    (hD : ∀ s ∈ D, s ∈ log.lh) (hV : ∀ s, Outside log.toRegion s → s ∉ log.lh → V s = new s) :
    Ends (do
      setLh []
      writeHead) m
      (fun _ m' => Safe log.toRegion old new m'.disk ∧ Carries log.toRegion new [] m'.disk.now)
      fun _ m' => Safe log.toRegion old new m'.disk ∧ H ≠ ∅ := by
  obtain ⟨hsafe, hdecided, hcarries, hat⟩ := h
  rw [take_length] at hat
  have hclean : D \ log.lh.toFinset = ∅ := by
    rw [Finset.sdiff_eq_empty_iff_subset]
    intro s hs
    exact mem_toFinset.mpr (hD s hs)
  rw [hclean] at hat
  have hhome : ∀ s, Outside log.toRegion s → m.disk.now s = new s := by
    intro s hs
    rw [← hat.view.clean s (Finset.notMem_empty s)]
    split
    · rfl
    · rename_i hmem
      exact hV s hs hmem
  apply Ends.bind (setLh_spec hat []).returns
  rintro _ m₁ ⟨hdisk₁, hat₁⟩
  apply (writeHead_spec hat₁ (Finset.notMem_empty _)).mono
  · rintro _ m₂ ⟨hdisk₂, -⟩
    rw [hdisk₂, hdisk₁, Recorded.now_write]
    have hdone : ∀ b, Carries log.toRegion new [] (update m.disk.now log.start (putHead b [])) :=
      fun b => carries_putHead hfits.nil b (fun _ _ hi => by cases hi) fun s hs _ => hhome s hs
    refine ⟨hsafe.write ?_, hdone _⟩
    rw [crashImage_append_start]
    exact ⟨[], hfits.nil, hdone _⟩
  · rintro e m₂ ⟨hdisk₂, hH⟩
    rw [hdisk₂, hdisk₁]
    refine ⟨hsafe, hH.resolve_right ?_⟩
    decide

/-! ### Recovery -/

/-- The machine after a restart: an empty cache and an in-memory log that is not read yet. -/
def boot (log : Log) (d : Nat → Block) : Machine :=
  binit d { log with outstanding := 0, committing := false, lh := [] }

theorem crashImage_self (ws : List (Nat × Block)) : crashImage reg img img ws = img := ite_self img

theorem installed_zero (hat : At log V H D m) (hsafe : Safe log.toRegion old new m.disk)
    (hdecided : crashImage log.toRegion old new m.disk.writes = new) (hcarries : Carries log.toRegion new log.lh m.disk.now) :
    Installed log old new V H D 0 m :=
  ⟨hsafe, hdecided, hcarries, by simpa using hat⟩

theorem recoverFromLog_spec (h : Recovers log.toRegion img d) :
    Ends recoverFromLog (boot log d)
      (fun _ m' => Safe log.toRegion img img m'.disk ∧ Carries log.toRegion img [] m'.disk.now) fun _ _ => False := by
  obtain ⟨lh, hfits, hcarries⟩ := h
  have hboot : At (boot log d).log d ∅ ∅ (boot log d) := ⟨rfl, describes_binit d _⟩
  unfold recoverFromLog
  apply (readHead_spec hboot).bind
  rintro _ m₁ ⟨hdisk, hat⟩
  change At { log with outstanding := 0, committing := false, lh := headSectors (d log.start) } d ∅ ∅ m₁
    at hat
  rw [hcarries.head] at hat
  have hsafe : Safe log.toRegion img img m₁.disk := by
    rw [hdisk]
    apply Recorded.always_start
    rw [crashImage_self]
    exact ⟨lh, hfits, hcarries⟩
  have hnow : m₁.disk.now = d := by
    rw [hdisk]
    rfl
  have hzero := installed_zero hat hsafe (crashImage_self _) (by rw [hnow]; exact hcarries)
  apply Ends.bind ((installTrans_spec hzero hfits hcarries.logged).stop ?_)
  · intro _ m₂ hdone
    exact (clear_spec hdone hfits (fun _ hs => by cases hs) hcarries.home).stop fun _ _ herr => herr.2 rfl
  · rintro e m₂ ⟨-, i, s, -, hstuck⟩
    simp [Stuck, nbuf, maxOpBlocks] at hstuck

/-- The disk after recoveries that are each cut off and started again. -/
def restarts (log : Log) (d : Nat → Block) : List Nat → Nat → Block
  | [] => d
  | k :: ks => restarts log ((leaves recoverFromLog (boot log d)).disk.after k) ks

theorem Recovers.restarts (h : Recovers log.toRegion img d) (ks : List Nat) :
    Recovers log.toRegion img (restarts log d ks) := by
  induction ks generalizing d with
  | nil => exact h
  | cons k ks ih =>
    have hend : Ends recoverFromLog (boot log d) (fun _ m' => Safe log.toRegion img img m'.disk)
        fun _ m' => Safe log.toRegion img img m'.disk :=
      (recoverFromLog_spec h).mono (fun _ _ hpost => hpost.1) fun _ _ hf => hf.elim
    have hcut := hend.leaves.cut k
    rw [crashImage_self] at hcut
    exact ih hcut

/-! ### Commit -/

/-- The state `commit` runs in: the logged sectors fit, the header on disk is empty, and the cache
holds the new contents, dirty exactly in the logged sectors. -/
structure Ready (m : Machine) (new : Nat → Block) (H : Finset Nat) : Prop where
  nonempty : m.log.lh ≠ []
  fits : Fits m.log.toRegion m.log.lh
  fresh : m.disk.writes = []
  empty : (m.disk.now m.log.start).word 4 0 = 0
  view : Describes m.bufs m.disk.now new H m.log.lh.toFinset

theorem Ready.logged_zero (h : Ready m new H) :
    Logged m.log m.disk.now new new H m.log.lh.toFinset 0 m := by
  have hcarries : Carries m.log.toRegion m.disk.now [] m.disk.now :=
    ⟨h.empty, headSectors_eq_nil h.empty, fun _ _ hi => (nomatch hi), fun _ _ _ => rfl⟩
  refine ⟨?_, by simp [h.fresh], hcarries, new, ⟨rfl, h.view⟩, fun _ _ => rfl, fun _ _ hj => by cases hj⟩
  intro k
  have hnil : m.disk.writes.take k = [] := by rw [h.fresh, take_nil]
  have hnow : m.disk.after k = m.disk.now := by rw [Recorded.after, hnil, Recorded.now, h.fresh]
  rw [hnil, hnow]
  exact ⟨[], h.fits.nil, hcarries⟩

/-- Why `commit` may not return: a buffer is held, or the logged sectors fill the cache. -/
def Jammed (m : Machine) (H : Finset Nat) : Prop := H ≠ ∅ ∨ nbuf ≤ m.log.lh.length

theorem Ready.jammed_of_stuck (h : Ready m new H) (hs : m.log.lh[i]? = some s)
    (hstuck : Stuck H (m.log.lh.toFinset \ (m.log.lh.take i).toFinset) s) : Jammed m H := by
  have hcard : (m.log.lh.toFinset \ (m.log.lh.take i).toFinset).card ≤ m.log.lh.length :=
    (Finset.card_le_card Finset.sdiff_subset).trans (toFinset_card_le _)
  rcases hstuck with hH | hfull | ⟨hmem, -⟩
  · exact Or.inl hH
  · exact Or.inr (hfull.trans hcard)
  · refine absurd ?_ hmem
    rw [Finset.mem_sdiff, mem_toFinset, mem_toFinset]
    refine ⟨mem_of_getElem? hs, fun hin => ?_⟩
    obtain ⟨j, hj, hget⟩ := mem_take_iff_getElem.mp hin
    have hlen : j < m.log.lh.length := by omega
    have hji := (getElem?_inj hlen h.fits.nodup).mp
      ((getElem?_eq_getElem hlen).trans ((congrArg some hget).trans hs.symm))
    omega

theorem commit_spec (h : Ready m new H) :
    Ends commit m
      (fun _ m' => Safe m.log.toRegion m.disk.now new m'.disk ∧ Carries m.log.toRegion new [] m'.disk.now)
      fun _ m' => Safe m.log.toRegion m.disk.now new m'.disk ∧ Jammed m H := by
  have hD : ∀ s ∈ m.log.lh.toFinset, Outside m.log.toRegion s := fun s hs =>
    h.fits.outside s (mem_toFinset.mp hs)
  have hget : getLog m = .ok m.log m := rfl
  unfold commit
  apply Ends.after_ok hget
  rw [if_pos h.nonempty]
  apply Ends.bind ((writeLog_spec h.logged_zero rfl h.fits hD).stop ?_)
  · rintro _ m₁ ⟨hsafe, hbefore, hold, V₁, hat, hout, hlogged⟩
    have hstart : m.log.start ∉ m.log.lh.toFinset := fun hin =>
      not_outside_start h.fits (hD _ hin)
    have hblock : ∀ i s, m.log.lh[i]? = some s → V₁ (m.log.start + i + 1) = new s := fun i s hi =>
      hlogged i s (List.getElem?_eq_some_iff.mp hi).1 hi
    apply Ends.bind ((writeHead_spec hat hstart).stop ?_)
    · rintro _ m₂ ⟨hdisk, hat₂⟩
      have hcarries : Carries m.log.toRegion new m.log.lh m₂.disk.now := by
        rw [hdisk, Recorded.now_write]
        apply carries_putHead h.fits
        · intro i s hi
          rw [← hat.view.clean _ fun hin => not_outside_block (h.fits.lt_size hi) (hD _ hin)]
          exact hblock i s hi
        · intro s hs hmem
          rw [← hat.view.clean _ fun hin => hmem (mem_toFinset.mp hin)]
          exact hout s hs
      have hdecided : crashImage m.log.toRegion m.disk.now new m₂.disk.writes = new := by
        rw [hdisk]
        exact crashImage_append_start _
      have hsafe₂ : Safe m.log.toRegion m.disk.now new m₂.disk := by
        rw [hdisk] at hcarries ⊢
        rw [Recorded.now_write] at hcarries
        apply hsafe.write
        rw [crashImage_append_start]
        exact ⟨m.log.lh, h.fits, hcarries⟩
      have hblock₂ : ∀ i s, m.log.lh[i]? = some s → update V₁ m.log.start
          (putHead (V₁ m.log.start) m.log.lh) (m.log.start + i + 1) = new s := by
        intro i s hi
        rw [update_of_ne (by omega)]
        exact hblock i s hi
      apply Ends.bind ((installTrans_spec (installed_zero hat₂ hsafe₂ hdecided hcarries) h.fits
        hblock₂).stop ?_)
      · intro _ m₃ hdone
        refine (clear_spec hdone h.fits (fun s hs => mem_toFinset.mp hs) ?_).mono
          (fun _ _ hpost => hpost) fun _ _ herr => ⟨herr.1, Or.inl herr.2⟩
        intro s hs _
        rw [update_of_ne (hs.ne_inside (not_outside_start h.fits))]
        exact hout s hs
      · rintro e m₃ ⟨hsafe₃, i, s, hi, hstuck⟩
        exact ⟨hsafe₃, h.jammed_of_stuck hi hstuck⟩
    · rintro e m₂ ⟨hdisk, hfull⟩
      rw [hdisk]
      exact ⟨hsafe, hfull.imp_right fun hcard => hcard.trans (toFinset_card_le _)⟩
  · rintro e m₁ ⟨hsafe, s, hs, hstuck⟩
    refine ⟨hsafe, ?_⟩
    rcases hstuck with hH | hfull | ⟨hmem, -⟩
    · exact Or.inl hH
    · exact Or.inr (hfull.trans (toFinset_card_le _))
    · exact absurd (mem_toFinset.mpr hs) hmem

/-- With no buffer held and a buffer to spare, `commit` runs to its end. -/
theorem commit_returns (h : Ready m new ∅) (hspare : m.log.lh.length < nbuf) :
    ∃ m', commit m = .ok () m' ∧ Carries m.log.toRegion new [] m'.disk.now := by
  have hend : Ends commit m (fun _ m' => Carries m.log.toRegion new [] m'.disk.now) fun _ _ => False := by
    apply (commit_spec h).mono fun _ _ hpost => hpost.2
    rintro e m' ⟨-, hjam⟩
    exact hjam.elim (fun hH => hH rfl) fun hfull => by omega
  obtain ⟨_, m', hrun, hpost⟩ := hend.exists_ok
  exact ⟨m', hrun, hpost⟩

/-- Cut `commit` off after `k` writes, and recovery any number of times after that; recovery that is
let finish clears the header and leaves all of the transaction if its header write was among the `k`,
and none of it otherwise. -/
theorem commit_crash_atomic (m : Machine) (new : Nat → Block) (H : Finset Nat) (h : Ready m new H)
    (k : Nat) (ks : List Nat) :
    ∃ m', recoverFromLog (boot m.log (restarts m.log ((leaves commit m).disk.after k) ks)) = .ok () m' ∧
      (m'.disk.now m.log.start).word 4 0 = 0 ∧
      ∀ s, Outside m.log.toRegion s → m'.disk.now s =
        if m.log.start ∈ ((leaves commit m).disk.writes.take k).map Prod.fst ∧ s ∈ m.log.lh then new s
        else m.disk.now s := by
  have hend : Ends commit m (fun _ m' => Safe m.log.toRegion m.disk.now new m'.disk)
      fun _ m' => Safe m.log.toRegion m.disk.now new m'.disk :=
    (commit_spec h).mono (fun _ _ hpost => hpost.1) fun _ _ hpost => hpost.1
  have hrecovers := (hend.leaves.cut k).restarts ks
  obtain ⟨_, m', hrun, -, hcarries⟩ := (recoverFromLog_spec hrecovers).exists_ok
  refine ⟨m', hrun, hcarries.count, fun s hs => ?_⟩
  rw [hcarries.home s hs not_mem_nil, crashImage]
  split
  · rename_i hreached
    rcases Decidable.em (s ∈ m.log.lh) with hmem | hmem
    · rw [if_pos ⟨hreached, hmem⟩]
    · rw [if_neg fun hand => hmem hand.2]
      exact h.view.clean s fun hin => hmem (mem_toFinset.mp hin)
  · rename_i hbefore
    rw [if_neg fun hand => hbefore hand.1]

def oneBlock : Machine where
  disk := .start fun _ _ => 0
  bufs := ⟨true, 9, false, true, true, fun _ => 1⟩ ::
    List.replicate 29 ⟨false, 0, false, false, false, fun _ => 0⟩
  log := { start := 2, size := 3, outstanding := 0, committing := true, lh := [9] }

theorem oneBlock_ready : Ready oneBlock (update (fun _ _ => 0) 9 fun _ => 1) ∅ where
  nonempty := by decide
  fits := by
    refine ⟨?_, ?_, ?_, ?_, ?_⟩ <;> decide
  fresh := rfl
  empty := by decide +kernel
  view := by
    refine ⟨rfl, ?_, ?_, ?_, ?_⟩
    · refine pairwise_cons.mpr ⟨fun c hc _ hcached => ?_, ?_⟩
      · rw [(mem_replicate.mp hc).2] at hcached
        cases hcached
      · exact pairwise_replicate.mpr (Or.inr fun h => by cases h)
    · intro b hb
      rcases mem_cons.mp hb with rfl | hb
      · simp [Agrees, oneBlock]
      · rw [(mem_replicate.mp hb).2]
        simp [Agrees]
    · intro s hs
      have heq : s = 9 := by simpa [oneBlock] using hs
      exact ⟨_, mem_cons_self, by rw [heq]; rfl⟩
    · intro s hs
      have hne : s ≠ 9 := by simpa [oneBlock] using hs
      exact update_of_ne hne _ _

theorem commit_returns_one_block : ∃ m', commit oneBlock = .ok () m' ∧
    Carries oneBlock.log.toRegion (update (fun _ _ => 0) 9 fun _ => 1) [] m'.disk.now :=
  commit_returns oneBlock_ready (by decide)

theorem commit_crash_atomic_one_block :
    ∃ m', recoverFromLog (boot oneBlock.log (restarts oneBlock.log
        ((leaves commit oneBlock).disk.after 2) [0, 1])) = .ok () m' ∧
      (m'.disk.now 2).word 4 0 = 0 ∧ m'.disk.now 9 = fun _ => 1 := by
  obtain ⟨m', hrun, hhead, hhome⟩ := commit_crash_atomic oneBlock _ ∅ oneBlock_ready 2 [0, 1]
  have hreached : oneBlock.log.start ∈ ((leaves commit oneBlock).disk.writes.take 2).map Prod.fst := by
    decide +kernel
  refine ⟨m', hrun, hhead, ?_⟩
  rw [hhome 9 (by decide), if_pos ⟨hreached, by decide⟩, update_self]

end RainOS.Recovery
