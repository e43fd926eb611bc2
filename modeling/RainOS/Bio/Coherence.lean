import Mathlib.Data.Fintype.Card
import RainOS.Bio.Shared

/-!
# The buffer cache is a block store

What a sector holds is the data of the valid buffer that carries it, and else what is on the disk. Storing into a
buffer changes that for the buffer's sector; no other step changes it, whichever buffers are recycled, written or
released. A buffer that is valid, clean and untouched is the same as its sector on disk, so recycling it loses nothing.
-/

namespace RainOS.Bcache

open Function List

variable {n : Nat} {P : Type} {s s' : State n P} {p q : P} {b c : Fin n} {key : Key} {a : Action n P} {l : Links n}

/-! ### The invariant -/

def Links.Linked (l : Links n) : Prop := ∃ o : List (Fin n), (∀ b, b ∈ o) ∧ Ring l.next l.prev none (o.map some)

/-- A process that `bget` gave a buffer for its `bread`, and that has not returned with it. -/
def Call.Fetches (call : Call n) (key : Key) (b : Fin n) : Prop := call = .got key b ∨ call = .reading key b

structure BufOk (s : State n P) (b : Fin n) : Prop where
  used : (s.buf b).valid = true ∨ (s.buf b).busy = true → (s.buf b).key.dev ≠ noDev
  empty : (s.buf b).valid = false → (s.buf b).dirty = false ∧ s.touched b = false
  fetched : (s.buf b).valid = false → (s.buf b).key.dev ≠ noDev → ∃ p key, (s.call p).Fetches key b
  touched : s.touched b = true → (s.buf b).busy = true
  clean : (s.buf b).valid = true → (s.buf b).dirty = false → s.touched b = false →
    (s.buf b).data = s.disk (s.buf b).key

def CallOk (s : State n P) (p : P) : Prop :=
  match s.call p with
  | .idle => True
  | .bget key | .asleep key _ => key.dev ≠ noDev
  | .got key b => s.held p b = true ∧ (s.buf b).key = key
  | .reading key b => s.held p b = true ∧ (s.buf b).key = key ∧ (s.buf b).valid = false
  | .writing b => s.held p b = true ∧ (s.buf b).valid = true ∧ (s.buf b).dirty = true

structure Inv (s : State n P) : Prop where
  links : s.links.Linked
  keys : ∀ b c, (s.buf b).key.dev ≠ noDev → (s.buf b).key = (s.buf c).key → b = c
  busy : ∀ b, (s.buf b).busy = true ↔ ∃ p, s.held p b = true
  one : ∀ p q b, s.held p b = true → s.held q b = true → p = q
  bufs : ∀ b, BufOk s b
  calls : ∀ p, CallOk s p

structure Local (s s' : State n P) (p : P) (b : Fin n) : Prop where
  buf : ∀ c, c ≠ b → s'.buf c = s.buf c
  touched : ∀ c, c ≠ b → s'.touched c = s.touched c
  disk : ∀ k, k ≠ (s'.buf b).key → s'.disk k = s.disk k
  call : ∀ q, q ≠ p → s'.call q = s.call q ∨ ∃ key c, s.call q = .asleep key c ∧ s'.call q = .bget key
  held : ∀ q c, q ≠ p ∨ c ≠ b → s'.held q c = s.held q c

theorem Local.callOk (hl : Local s s' p b) (hfree : ∀ q, q ≠ p → s.held q b = false) (hq : q ≠ p) (h : CallOk s q) :
    CallOk s' q := by
  have hkept : ∀ d, s.held q d = true → s'.held q d = true ∧ s'.buf d = s.buf d := fun d hd => by
    have hdb : d ≠ b := by
      rintro rfl
      exact nomatch (hfree q hq).symm.trans hd
    exact ⟨by rw [hl.held q d (.inr hdb), hd], hl.buf d hdb⟩
  unfold CallOk at h ⊢
  obtain heq | ⟨key, d, hasleep, hwoken⟩ := hl.call q hq
  · rw [heq]
    split at h
    · trivial
    · exact h
    · exact h
    · obtain ⟨hheld, hbuf⟩ := hkept _ h.1
      exact ⟨hheld, hbuf ▸ h.2⟩
    · obtain ⟨hheld, hbuf⟩ := hkept _ h.1
      exact ⟨hheld, hbuf ▸ h.2⟩
    · obtain ⟨hheld, hbuf⟩ := hkept _ h.1
      exact ⟨hheld, hbuf ▸ h.2⟩
  · rw [hasleep] at h
    rw [hwoken]
    exact h

theorem Local.bufOk (hl : Local s s' p b) (hfetch : ∀ key c, c ≠ b → ¬(s.call p).Fetches key c)
    (hkey : (s'.buf b).key ≠ (s.buf c).key) (hc : c ≠ b) (h : BufOk s c) : BufOk s' c := by
  obtain ⟨hused, hempty, hfetched, htouch, hclean⟩ := h
  refine ⟨?_, ?_, ?_, ?_, ?_⟩
  · rwa [hl.buf c hc]
  · rwa [hl.buf c hc, hl.touched c hc]
  · rw [hl.buf c hc]
    intro hv hdev
    obtain ⟨q, key, hq⟩ := hfetched hv hdev
    have hqp : q ≠ p := by
      rintro rfl
      exact hfetch key c hc hq
    refine ⟨q, key, ?_⟩
    obtain heq | ⟨key, d, heq, -⟩ := hl.call q hqp
    · rwa [heq]
    · obtain hk | hk := hq
      · exact nomatch heq.symm.trans hk
      · exact nomatch heq.symm.trans hk
  · rwa [hl.buf c hc, hl.touched c hc]
  · rw [hl.buf c hc, hl.touched c hc, hl.disk _ hkey.symm]
    exact hclean

theorem Inv.change (h : Inv s) (hl : Local s s' p b) (hlinks : s'.links.Linked)
    (hfree : ∀ q, q ≠ p → s.held q b = false) (hfetch : ∀ key c, c ≠ b → ¬(s.call p).Fetches key c)
    (hkey : ∀ c, c ≠ b → (s'.buf b).key ≠ (s.buf c).key) (hbusy : (s'.buf b).busy = s'.held p b) (hb : BufOk s' b)
    (hp : CallOk s' p) : Inv s' := by
  have hfree' : ∀ q, s'.held q b = true → q = p := fun q hq => by
    by_contra hqp
    rw [hl.held q b (.inl hqp), hfree q hqp] at hq
    cases hq
  refine ⟨hlinks, fun c d hc hcd => ?_, fun c => ?_, fun q r c hq hr => ?_, fun c => ?_, fun q => ?_⟩
  · by_cases hcb : c = b
    · by_cases hdb : d = b
      · rw [hcb, hdb]
      · rw [hcb, hl.buf d hdb] at hcd
        exact absurd hcd (hkey d hdb)
    · rw [hl.buf c hcb] at hc hcd
      by_cases hdb : d = b
      · rw [hdb] at hcd
        exact absurd hcd.symm (hkey c hcb)
      · rw [hl.buf d hdb] at hcd
        exact h.keys c d hc hcd
  · by_cases hcb : c = b
    · rw [hcb, hbusy]
      exact ⟨fun hp => ⟨p, hp⟩, fun ⟨q, hq⟩ => hfree' q hq ▸ hq⟩
    · rw [hl.buf c hcb, h.busy c]
      exact exists_congr fun q => by rw [hl.held q c (.inr hcb)]
  · by_cases hcb : c = b
    · rw [hcb] at hq hr
      rw [hfree' q hq, hfree' r hr]
    · rw [hl.held q c (.inr hcb)] at hq
      rw [hl.held r c (.inr hcb)] at hr
      exact h.one q r c hq hr
  · by_cases hcb : c = b
    · exact hcb ▸ hb
    · exact hl.bufOk hfetch (hkey c hcb) hcb (h.bufs c)
  · by_cases hqp : q = p
    · exact hqp ▸ hp
    · exact hl.callOk hfree hqp (h.calls q)

/-! ### What a sector holds -/

def State.contents (s : State n P) (key : Key) : Block :=
  match (List.finRange n).find? fun b => (s.buf b).key = key ∧ (s.buf b).valid = true with
  | some b => (s.buf b).data
  | none => s.disk key

theorem contents_cases (s : State n P) (key : Key) :
    (∃ b, (s.buf b).key = key ∧ (s.buf b).valid = true ∧ s.contents key = (s.buf b).data) ∨
      (∀ b, (s.buf b).key = key → (s.buf b).valid = false) ∧ s.contents key = s.disk key := by
  unfold State.contents
  split
  · rename_i b hb
    have hfound := find?_some hb
    obtain ⟨hkey, hvalid⟩ := of_decide_eq_true hfound
    exact .inl ⟨b, hkey, hvalid, rfl⟩
  · rename_i hnone
    refine .inr ⟨fun b hb => ?_, rfl⟩
    rw [Bool.eq_false_iff]
    exact fun hv => find?_eq_none.mp hnone b (mem_finRange b) (decide_eq_true ⟨hb, hv⟩)

theorem Inv.contents_eq (h : Inv s) (hv : (s.buf b).valid = true) : s.contents (s.buf b).key = (s.buf b).data := by
  obtain ⟨c, hkey, -, heq⟩ | ⟨hnone, -⟩ := contents_cases s (s.buf b).key
  · rw [heq, h.keys b c ((h.bufs b).used (.inl hv)) hkey.symm]
  · exact nomatch (hnone b rfl).symm.trans hv

theorem contents_of_none (hnone : ∀ b, (s.buf b).key = key → (s.buf b).valid = false) : s.contents key = s.disk key := by
  obtain ⟨c, hkey, hv, -⟩ | ⟨-, heq⟩ := contents_cases s key
  · exact nomatch (hnone c hkey).symm.trans hv
  · exact heq

theorem contents_other (hbuf : ∀ c, c ≠ b → s'.buf c = s.buf c) (hdisk : s'.disk key = s.disk key)
    (hold : (s.buf b).key ≠ key ∨ (s.buf b).valid = false) (hnew : (s'.buf b).key ≠ key ∨ (s'.buf b).valid = false) :
    s'.contents key = s.contents key := by
  have hpred : (fun c => decide ((s'.buf c).key = key ∧ (s'.buf c).valid = true)) =
      fun c => decide ((s.buf c).key = key ∧ (s.buf c).valid = true) := by
    funext c
    rw [decide_eq_decide]
    by_cases hcb : c = b
    · rw [hcb]
      refine iff_of_false ?_ ?_
      · rintro ⟨hk, hv⟩
        exact hnew.elim (fun h => h hk) fun h => nomatch h.symm.trans hv
      · rintro ⟨hk, hv⟩
        exact hold.elim (fun h => h hk) fun h => nomatch h.symm.trans hv
    · rw [hbuf c hcb]
  unfold State.contents
  rw [hpred]
  split
  · rename_i c hc
    have hfound := find?_some hc
    obtain ⟨hk, hv⟩ := of_decide_eq_true hfound
    have hcb : c ≠ b := by
      rintro rfl
      exact hold.elim (fun h => h hk) fun h => nomatch h.symm.trans hv
    rw [hbuf c hcb]
  · exact hdisk

/-! ### The list -/

theorem Links.Linked.symm (h : l.Linked) : Links.Linked ⟨l.prev, l.next⟩ := by
  obtain ⟨o, hall, hring⟩ := h
  refine ⟨o.reverse, fun b => mem_reverse.mpr (hall b), ?_⟩
  rw [map_reverse]
  exact hring.symm

theorem Links.Linked.walk (h : l.Linked) (test : Fin n → Bool) :
    (∃ b, test b = true ∧ walk l.next none (onLink test) (n + 1) (l.next none) = some (some (some b))) ∨
      (∀ b, test b = false) ∧ walk l.next none (onLink test) (n + 1) (l.next none) = some none := by
  obtain ⟨o, hall, hring⟩ := h
  obtain ⟨hnot, hnodup⟩ := nodup_cons.mp hring.nodup
  have hlength : (o.map some).length < n + 1 := by
    have hle := (List.Nodup.of_map some hnodup).length_le_card
    rw [Fintype.card_fin] at hle
    rw [length_map]
    omega
  rw [hring.next.walk_eq hnot (onLink test) hlength, find?_map]
  have hsame : onLink test ∘ some = test := rfl
  rw [hsame]
  cases hfind : o.find? test with
  | none => exact .inr ⟨fun b => Bool.eq_false_iff.mpr (find?_eq_none.mp hfind b (hall b)), rfl⟩
  | some b => exact .inl ⟨b, find?_some hfind, rfl⟩

theorem Links.push_eq (l : Links n) (b : Fin n) :
    l.push b = ⟨update (update l.next (some b) (l.next none)) none (some b),
      update (update l.prev (some b) none) (l.next none) (some b)⟩ := by
  have hnext : update l.next (some b) (l.next none) none = l.next none := update_of_ne (Option.some_ne_none b).symm _ _
  rw [Links.push]
  simp only [hnext]

theorem Links.toFront_linked (h : l.Linked) (b : Fin n) : (l.toFront b).Linked := by
  obtain ⟨o, hall, hring⟩ := h
  obtain ⟨o₁, o₂, rfl⟩ := append_of_mem (hall b)
  rw [map_append, map_cons] at hring
  have hself : some b ≠ l.next (some b) := by
    intro heq
    obtain ⟨hfirst, hnodup⟩ := nodup_cons.mp hring.nodup
    have hafter := (Path.append.mp hring.next).2.first
    rw [← heq] at hafter
    obtain ⟨hnot, -⟩ := nodup_cons.mp (nodup_append.mp hnodup).2.1
    cases o₂ with
    | nil => exact nomatch hafter
    | cons c o => exact hnot (hafter ▸ mem_cons_self)
  have hout := hring.unlink
  rw [← map_append] at hout
  have hnot : some b ∉ none :: (o₁ ++ o₂).map some := by
    obtain ⟨-, hnodup⟩ := nodup_cons.mp hring.nodup
    have hb := (nodup_middle.mp hnodup)
    rw [← map_append] at hb
    simpa using (nodup_cons.mp hb).1
  refine ⟨b :: (o₁ ++ o₂), fun c => ?_, ?_⟩
  · have hc := hall c
    rw [mem_append, mem_cons] at hc
    rw [mem_cons, mem_append]
    tauto
  · have hin := hout.push hnot
    rw [Links.toFront, Links.push_eq, update_of_ne hself]
    exact hin

theorem binit_linked (n : Nat) : (binit n).Linked := by
  have hpush : ∀ (bs o : List (Fin n)) (l : Links n), Ring l.next l.prev none (o.map some) → (o ++ bs).Nodup →
      ∃ o' : List (Fin n), (∀ b, b ∈ o ∨ b ∈ bs → b ∈ o') ∧
        Ring (bs.foldl Links.push l).next (bs.foldl Links.push l).prev none (o'.map some) := by
    intro bs
    induction bs with
    | nil => exact fun o l hring _ => ⟨o, fun b hb => hb.resolve_right not_mem_nil, hring⟩
    | cons b bs ih =>
      intro o l hring hnodup
      have hnodup := nodup_middle.mp hnodup
      have hnot : some b ∉ none :: o.map some := by
        have hb := (nodup_cons.mp hnodup).1
        simp only [mem_append, not_or] at hb
        simpa using hb.1
      have hring' := hring.push hnot
      obtain ⟨o', hall, hend⟩ := ih (b :: o) (l.push b) (by rw [Links.push_eq]; exact hring') hnodup
      refine ⟨o', fun c hc => hall c ?_, hend⟩
      rw [mem_cons] at hc ⊢
      tauto
  obtain ⟨o, hall, hring⟩ := hpush (finRange n) [] ⟨fun _ => none, fun _ => none⟩ ⟨by simp, rfl, rfl⟩
    (by simpa using nodup_finRange n)
  exact ⟨o, fun b => hall b (.inr (mem_finRange b)), hring⟩

/-! ### What one step does -/

theorem Inv.free_of_held (h : Inv s) (hp : s.held p b = true) (q : P) (hq : q ≠ p) : s.held q b = false :=
  Bool.eq_false_iff.mpr fun hq' => hq (h.one q p b hq' hp)

theorem Inv.busy_of_held (h : Inv s) (hp : s.held p b = true) : (s.buf b).busy = true := (h.busy b).mpr ⟨p, hp⟩

theorem Inv.free_of_idle (h : Inv s) (hb : (s.buf b).busy = false) (q : P) : s.held q b = false :=
  Bool.eq_false_iff.mpr fun hq => nomatch hb.symm.trans (h.busy_of_held hq)

theorem Inv.untouched (h : Inv s) (hb : (s.buf b).busy = false) : s.touched b = false :=
  Bool.eq_false_iff.mpr fun ht => nomatch hb.symm.trans ((h.bufs b).touched ht)

theorem not_fetches_of_bget (hcall : s.call p = .bget key) (key' : Key) (c : Fin n) :
    ¬(s.call p).Fetches key' c := by
  rintro (hf | hf)
  · exact nomatch hcall.symm.trans hf
  · exact nomatch hcall.symm.trans hf

theorem Inv.dev_of_bget (h : Inv s) (hcall : s.call p = .bget key) : key.dev ≠ noDev := by
  have hp := h.calls p
  unfold CallOk at hp
  rwa [hcall] at hp

theorem Inv.held_of_fetches (h : Inv s) (hf : (s.call p).Fetches key b) : s.held p b = true ∧ (s.buf b).key = key := by
  have hp := h.calls p
  unfold CallOk at hp
  obtain hf | hf := hf
  · rw [hf] at hp
    exact hp
  · rw [hf] at hp
    exact ⟨hp.1, hp.2.1⟩

theorem Inv.key_ne (h : Inv s) (hb : (s.buf b).key.dev ≠ noDev) (c : Fin n) (hc : c ≠ b) :
    (s.buf b).key ≠ (s.buf c).key :=
  fun heq => hc (h.keys b c hb heq).symm

theorem Inv.valid_of_held (h : Inv s) (hidle : s.call p = .idle) (hp : s.held p b = true) :
    (s.buf b).valid = true := by
  by_contra hv
  rw [Bool.not_eq_true] at hv
  obtain ⟨q, key, hq⟩ := (h.bufs b).fetched hv ((h.bufs b).used (.inr (h.busy_of_held hp)))
  have heq := h.one q p b (h.held_of_fetches hq).1 hp
  rw [heq, hidle] at hq
  obtain hq | hq := hq
  · cases hq
  · cases hq

theorem Call.idle_not_fetches (b : Fin n) : ¬(Call.idle : Call n).Fetches key b := by
  rintro (h | h)
  · cases h
  · cases h

def lastStored (s : State n P) : Action n P → (Key → Block) → Key → Block
  | .store _ b data, m => update m (s.buf b).key data
  | _, m => m

structure Advance (s : State n P) (a : Action n P) (s' : State n P) : Prop where
  inv : Inv s'
  contents : s'.contents = lastStored s a s.contents
  dirty : ∀ b, (s.buf b).dirty = true → (s.buf b).busy = false →
    (s'.buf b).key = (s.buf b).key ∧ (s'.buf b).data = (s.buf b).data ∧ (s'.buf b).dirty = true
  disk : ∀ k, s'.disk k ≠ s.disk k →
    ∃ p b, a = .complete p ∧ s.call p = .writing b ∧ (s.buf b).key = k ∧ s'.disk k = (s.buf b).data
  returns : ∀ p key b, (s.call p).Fetches key b → s'.call p = .idle →
    s'.held p b = true ∧ (s'.buf b).key = key ∧ (s'.buf b).data = s.contents key

theorem Local.advance (hl : Local s s' p b) (h' : Inv s') (hcontents : s'.contents = lastStored s a s.contents)
    (hdirty : (s.buf b).dirty = true → (s.buf b).busy = false →
      (s'.buf b).key = (s.buf b).key ∧ (s'.buf b).data = (s.buf b).data ∧ (s'.buf b).dirty = true)
    (hdisk : ∀ k, s'.disk k ≠ s.disk k →
      ∃ p b, a = .complete p ∧ s.call p = .writing b ∧ (s.buf b).key = k ∧ s'.disk k = (s.buf b).data)
    (hreturns : ∀ key c, (s.call p).Fetches key c → s'.call p = .idle →
      s'.held p c = true ∧ (s'.buf c).key = key ∧ (s'.buf c).data = s.contents key) : Advance s a s' := by
  refine ⟨h', hcontents, fun c hd hb => ?_, hdisk, fun q key c hq hidle => ?_⟩
  · by_cases hc : c = b
    · rw [hc] at hd hb ⊢
      exact hdirty hd hb
    · rw [hl.buf c hc]
      exact ⟨rfl, rfl, hd⟩
  · by_cases hqp : q = p
    · rw [hqp] at hq hidle ⊢
      exact hreturns key c hq hidle
    · obtain heq | ⟨key', d, -, hwoken⟩ := hl.call q hqp
      · rw [← heq, hidle] at hq
        exact absurd hq (Call.idle_not_fetches c)
      · exact nomatch hidle.symm.trans hwoken

theorem Local.contents_eq (hl : Local s s' p b) (h' : Inv s') (hkey : (s'.buf b).key = (s.buf b).key)
    (hv : (s'.buf b).valid = true) : s'.contents = update s.contents (s.buf b).key (s'.buf b).data := by
  funext k
  by_cases hk : k = (s.buf b).key
  · rw [hk, update_self, ← hkey]
    exact h'.contents_eq hv
  · rw [update_of_ne hk]
    rw [← hkey] at hk
    exact contents_other hl.buf (hl.disk k hk) (.inl (hkey ▸ Ne.symm hk)) (.inl (Ne.symm hk))

theorem Local.contents_same (hl : Local s s' p b) (h : Inv s) (h' : Inv s') (hkey : (s'.buf b).key = (s.buf b).key)
    (hv : (s.buf b).valid = true) (hv' : (s'.buf b).valid = true) (hdata : (s'.buf b).data = (s.buf b).data) :
    s'.contents = s.contents := by
  rw [hl.contents_eq h' hkey hv', hdata, ← h.contents_eq hv, update_eq_self]

theorem Local.holder (hl : Local s s' p b) (h : Inv s) (hheld : s.held p b = true)
    (hlinks : s'.links.Linked) (hkey : (s'.buf b).key = (s.buf b).key) (hv : (s'.buf b).valid = true)
    (hbusy : (s'.buf b).busy = s'.held p b) (htouch : s'.touched b = true → (s'.buf b).busy = true)
    (hclean : (s'.buf b).dirty = false → s'.touched b = false → (s'.buf b).data = s'.disk (s'.buf b).key)
    (hp : CallOk s' p) (hdata : update s.contents (s.buf b).key (s'.buf b).data = lastStored s a s.contents)
    (hdisk : ∀ k, s'.disk k ≠ s.disk k →
      ∃ p b, a = .complete p ∧ s.call p = .writing b ∧ (s.buf b).key = k ∧ s'.disk k = (s.buf b).data)
    (hreturns : ∀ key c, (s.call p).Fetches key c → c = b ∧ s'.held p b = true ∧ (s'.buf b).data = s.contents key) :
    Advance s a s' := by
  have hb := h.busy_of_held hheld
  have hdev := (h.bufs b).used (.inr hb)
  have hinv : Inv s' := by
    refine h.change hl hlinks (h.free_of_held hheld) (fun key c hc hf => hc (hreturns key c hf).1) ?_ hbusy ?_ hp
    · rw [hkey]
      exact h.key_ne hdev
    · exact ⟨fun _ => hkey ▸ hdev, fun hv' => (nomatch hv'.symm.trans hv), fun hv' => (nomatch hv'.symm.trans hv),
        htouch, fun _ => hclean⟩
  refine hl.advance hinv ((hl.contents_eq hinv hkey hv).trans hdata) (fun _ hb' => nomatch hb'.symm.trans hb) hdisk
    fun key c hf _ => ?_
  obtain ⟨rfl, hheld', hdata'⟩ := hreturns key c hf
  exact ⟨hheld', hkey.trans (h.held_of_fetches hf).2, hdata'⟩

theorem Inv.modify (h : Inv s) {x : Buf} (hidle : s.call p = .idle) (hheld : s.held p b = true)
    (hbuf : s'.buf = update s.buf b x) (hsame : s'.links = s.links ∧ s'.disk = s.disk ∧ s'.held = s.held)
    (htouched : ∀ c, c ≠ b → s'.touched c = s.touched c) (hcall : ∀ q, q ≠ p → s'.call q = s.call q)
    (hx : x.key = (s.buf b).key ∧ x.busy = (s.buf b).busy ∧ x.valid = (s.buf b).valid)
    (hpending : s'.touched b = true ∨ x.dirty = true) (hp : CallOk s' p)
    (hdata : update s.contents (s.buf b).key x.data = lastStored s a s.contents) : Advance s a s' := by
  obtain ⟨hlinks, hdisk, hheld'⟩ := hsame
  obtain ⟨hkey, hbusy, hvalid⟩ := hx
  have hb := h.busy_of_held hheld
  have hself : s'.buf b = x := by rw [hbuf, update_self]
  have hl : Local s s' p b :=
    ⟨fun c hc => by rw [hbuf, update_of_ne hc], htouched, fun k _ => by rw [hdisk], fun q hq => .inl (hcall q hq),
      fun q c _ => by rw [hheld']⟩
  refine hl.holder h hheld (hlinks ▸ h.links) (hself ▸ hkey) ?_ ?_ (fun _ => ?_) (fun hd ht => ?_) hp (hself ▸ hdata)
    (fun k hk => absurd (by rw [hdisk]) hk) fun key c hf => absurd (hidle ▸ hf) (Call.idle_not_fetches c)
  · rw [hself, hvalid]
    exact h.valid_of_held hidle hheld
  · rw [hself, hbusy, hb, hheld', hheld]
  · rw [hself, hbusy, hb]
  · rw [hself] at hd
    obtain ht' | hd' := hpending
    · exact nomatch ht.symm.trans ht'
    · exact nomatch hd.symm.trans hd'

section

variable (h : Inv s) (hidle : s.call p = .idle) (hheld : s.held p b = true)
include h hidle hheld

theorem Inv.contents_update :
    update s.contents (s.buf b).key (s.buf b).data = s.contents := by
  rw [← h.contents_eq (h.valid_of_held hidle hheld), update_eq_self]

theorem Inv.store (data : Block) :
    Advance s (.store p b data)
      { s.setBuf b fun c => { c with data := data } with touched := update s.touched b true } := by
  refine h.modify hidle hheld rfl ⟨rfl, rfl, rfl⟩ (fun c hc => update_of_ne hc _ _) (fun _ _ => rfl) ⟨rfl, rfl, rfl⟩
    (.inl (by simp only [update_self])) ?_ rfl
  unfold CallOk
  simp [hidle]

theorem Inv.logWrite :
    Advance s (.logWrite p b)
      { s.setBuf b fun c => { c with dirty := true } with touched := update s.touched b false } := by
  refine h.modify hidle hheld rfl ⟨rfl, rfl, rfl⟩ (fun c hc => update_of_ne hc _ _) (fun _ _ => rfl) ⟨rfl, rfl, rfl⟩
    (.inr rfl) ?_ (h.contents_update hidle hheld)
  unfold CallOk
  simp [hidle]

end

variable [DecidableEq P] {r : Except Halt (State n P)}

theorem Inv.setCall (h : Inv s) {call : Call n} (hp : CallOk (s.setCall p call) p) (ha : lastStored s a s.contents = s.contents)
    (hfetch : ∀ key b, (s.call p).Fetches key b → (s.buf b).valid = true ∨ call.Fetches key b) :
    Advance s a (s.setCall p call) := by
  have hother : ∀ q, q ≠ p → (s.setCall p call).call q = s.call q := fun q hq => by
    simp [update_of_ne hq]
  have hself : (s.setCall p call).call p = call := by simp
  have hinv : Inv (s.setCall p call) := by
    refine ⟨h.links, h.keys, h.busy, h.one, fun b => ?_, fun q => ?_⟩
    · obtain ⟨hused, hempty, hfetched, htouch, hclean⟩ := h.bufs b
      refine ⟨hused, hempty, fun hv hdev => ?_, htouch, hclean⟩
      obtain ⟨q, key, hq⟩ := hfetched hv hdev
      refine ⟨q, key, ?_⟩
      by_cases hqp : q = p
      · rw [hqp] at hq ⊢
        rw [hself]
        exact (hfetch key b hq).resolve_left fun hv' => nomatch hv.symm.trans hv'
      · rwa [hother q hqp]
    · by_cases hqp : q = p
      · exact hqp ▸ hp
      · have hq := h.calls q
        unfold CallOk at hq ⊢
        rw [hother q hqp]
        exact hq
  refine ⟨hinv, ha.symm, fun b hd _ => ⟨rfl, rfl, hd⟩, fun k hk => absurd rfl hk, fun q key b hq hidle => ?_⟩
  obtain ⟨hheld, hkey⟩ := h.held_of_fetches hq
  refine ⟨hheld, hkey, ?_⟩
  by_cases hqp : q = p
  · rw [hqp] at hq hidle
    rw [hself] at hidle
    have hv := (hfetch key b hq).resolve_right fun hf => Call.idle_not_fetches b (hidle ▸ hf)
    rw [← hkey]
    exact (h.contents_eq hv).symm
  · rw [hother q hqp] at hidle
    exact absurd (hidle ▸ hq) (Call.idle_not_fetches b)

theorem Inv.bwrite (h : Inv s) (hidle : s.call p = .idle) (hheld : s.held p b = true) :
    Advance s (.bwrite p b) ((s.setBuf b fun c => { c with dirty := true }).setCall p (.writing b)) := by
  refine h.modify hidle hheld rfl ⟨rfl, rfl, rfl⟩ (fun _ _ => rfl) (fun q hq => update_of_ne hq _ _) ⟨rfl, rfl, rfl⟩
    (.inr rfl) ?_ (h.contents_update hidle hheld)
  unfold CallOk
  simp only [State.setBuf, State.setCall, update_self]
  exact ⟨hheld, h.valid_of_held hidle hheld, trivial⟩

theorem Call.wake_cases (call : Call n) (b : Fin n) :
    call.wake b = call ∨ ∃ key c, call = .asleep key c ∧ call.wake b = .bget key := by
  unfold Call.wake
  split
  · rename_i key c
    split
    · exact .inr ⟨key, c, rfl, rfl⟩
    · exact .inl rfl
  · exact .inl rfl

theorem Inv.brelse (h : Inv s) (hidle : s.call p = .idle) (hheld : s.held p b = true) (ht : s.touched b = false) :
    ∃ s', brelse s p b = .ok s' ∧ Advance s (.brelse p b) s' := by
  have hb := h.busy_of_held hheld
  have hv := h.valid_of_held hidle hheld
  unfold Bcache.brelse
  rw [if_neg (by simp [hb])]
  refine ⟨_, rfl, ?_⟩
  refine Local.holder (p := p) (b := b) ⟨fun c hc => ?_, fun _ _ => rfl, fun _ _ => rfl, fun q _ => ?_, fun q c hqc => ?_⟩
    h hheld ?_ ?_ ?_ ?_ (fun ht' => ?_) (fun hd _ => ?_) ?_ ?_ (fun k hk => absurd rfl hk)
    fun key c hf => absurd (hidle ▸ hf) (Call.idle_not_fetches c)
  · simp [update_of_ne hc]
  · exact Call.wake_cases (s.call q) b
  · by_cases hq : q = p
    · subst hq
      simp [update_of_ne (hqc.resolve_left fun hne => hne rfl)]
    · simp [update_of_ne hq]
  · exact Links.toFront_linked h.links b
  · simp
  · simp
    exact hv
  · simp
  · exact nomatch ht.symm.trans ht'
  · simp at hd ⊢
    exact (h.bufs b).clean hv hd ht
  · unfold CallOk
    simp [hidle, Call.wake]
  · simp
    exact h.contents_update hidle hheld

theorem Inv.complete_write (h : Inv s) (hcall : s.call p = .writing b) :
    Advance s (.complete p) (complete s p b) := by
  have hp := h.calls p
  unfold CallOk at hp
  rw [hcall] at hp
  obtain ⟨hheld, hv, hd⟩ := hp
  have hb := h.busy_of_held hheld
  unfold Bcache.complete
  simp only [hd, if_true]
  refine Local.holder (p := p) (b := b) ⟨fun c hc => ?_, fun c hc => ?_, fun k hk => ?_, fun q hq => .inl ?_,
    fun _ _ _ => rfl⟩ h hheld h.links ?_ ?_ ?_ (fun _ => ?_) (fun _ _ => ?_) ?_ ?_ (fun k hk => ?_) fun key c hf => ?_
  · simp [update_of_ne hc]
  · simp [update_of_ne hc]
  · simp at hk ⊢
    rw [update_of_ne hk]
  · simp [update_of_ne hq]
  · simp
  · simp
  · simp [hb, hheld]
  · simp [hb]
  · simp
  · unfold CallOk
    simp
  · simp only [State.setBuf, State.setCall, update_self, lastStored]
    rw [← h.contents_eq hv, update_eq_self]
  · simp only [State.setCall] at hk ⊢
    have heq : k = (s.buf b).key := by
      by_contra hne
      exact hk (update_of_ne hne _ _)
    exact ⟨p, b, rfl, hcall, heq.symm, by rw [heq, update_self]⟩
  · rw [hcall] at hf
    obtain hf | hf := hf
    · cases hf
    · cases hf

theorem Inv.complete_read (h : Inv s) (hcall : s.call p = .reading key b) :
    Advance s (.complete p) (complete s p b) := by
  have hp := h.calls p
  unfold CallOk at hp
  rw [hcall] at hp
  obtain ⟨hheld, hkey, hv⟩ := hp
  have hb := h.busy_of_held hheld
  have hdev := (h.bufs b).used (.inr hb)
  obtain ⟨hd, ht⟩ := (h.bufs b).empty hv
  -- no other buffer has the sector, so the disk is what it holds
  have hdisk : s.disk (s.buf b).key = s.contents (s.buf b).key :=
    (contents_of_none fun c hc => h.keys b c hdev hc.symm ▸ hv).symm
  unfold Bcache.complete
  simp only [hd, Bool.false_eq_true, if_false]
  refine Local.holder (p := p) (b := b) ⟨fun c hc => ?_, fun _ _ => rfl, fun _ _ => rfl, fun q hq => .inl ?_,
    fun _ _ _ => rfl⟩ h hheld h.links ?_ ?_ ?_ (fun _ => ?_) (fun _ _ => ?_) ?_ ?_ (fun k hk => absurd rfl hk)
    fun key' c hf => ?_
  · simp [update_of_ne hc]
  · simp [update_of_ne hq]
  · simp
  · simp
  · simp [hb, hheld]
  · simp [hb]
  · simp
  · unfold CallOk
    simp
  · simp only [State.setBuf, State.setCall, update_self, lastStored]
    rw [hdisk, update_eq_self]
  · rw [hcall] at hf
    obtain hf | hf := hf
    · cases hf
    · cases hf
      simp only [State.setBuf, State.setCall, update_self]
      exact ⟨trivial, hheld, by rw [hdisk, hkey]⟩

/-! ### Getting a buffer -/

def State.give (s : State n P) (p : P) (key : Key) (b : Fin n) (f : Buf → Buf) : State n P :=
  ((s.setBuf b f).setCall p (.got key b)).hold p b true

section Give

variable (s : State n P) (p : P) (key : Key) (b : Fin n) (f : Buf → Buf)

@[simp] theorem give_buf : (s.give p key b f).buf b = f (s.buf b) := by
  simp [State.give]

@[simp] theorem give_held : (s.give p key b f).held p b = true := by
  simp [State.give]

@[simp] theorem give_call : (s.give p key b f).call p = .got key b := by
  simp [State.give]

theorem give_local : Local s (s.give p key b f) p b where
  buf c hc := by simp [State.give, update_of_ne hc]
  touched _ _ := rfl
  disk _ _ := rfl
  call q hq := .inl (by simp [State.give, update_of_ne hq])
  held q c hqc := by
    by_cases hq : q = p
    · subst hq
      have hc := hqc.resolve_left fun hne => hne rfl
      simp [State.give, update_of_ne hc]
    · simp [State.give, update_of_ne hq]

end Give

section

variable (h : Inv s) (hcall : s.call p = .bget key)
include h hcall

theorem Inv.give (hb : (s.buf b).busy = false) {f : Buf → Buf}
    (hkey : (f (s.buf b)).key = key) (hbusy : (f (s.buf b)).busy = true) (hne : ∀ c, c ≠ b → key ≠ (s.buf c).key)
    (hempty : (f (s.buf b)).valid = false → (f (s.buf b)).dirty = false)
    (hclean : (f (s.buf b)).valid = true → (f (s.buf b)).dirty = false →
      (f (s.buf b)).data = s.disk (f (s.buf b)).key) : Inv (s.give p key b f) := by
  have ht := h.untouched hb
  refine h.change (give_local s p key b f) h.links (fun q _ => h.free_of_idle hb q)
    (fun key c _ => not_fetches_of_bget hcall key c) ?_ ?_ ?_ ?_
  · rw [give_buf, hkey]
    exact hne
  · rw [give_buf, hbusy, give_held]
  · refine ⟨?_, ?_, ?_, fun ht' => (nomatch ht.symm.trans ht'), ?_⟩
    · rw [give_buf, hkey]
      exact fun _ => h.dev_of_bget hcall
    · rw [give_buf]
      exact fun hv => ⟨hempty hv, ht⟩
    · exact fun _ _ => ⟨p, key, .inl (give_call s p key b f)⟩
    · rw [give_buf]
      exact fun hv hd _ => hclean hv hd
  · unfold CallOk
    rw [give_call]
    exact ⟨give_held s p key b f, by rw [give_buf, hkey]⟩

theorem Inv.bget_hit (hkey : (s.buf b).key = key)
    (hb : (s.buf b).busy = false) : Advance s (.bget p) (s.give p key b fun c => { c with busy := true }) := by
  have hdev : (s.buf b).key.dev ≠ noDev := hkey ▸ h.dev_of_bget hcall
  have hv : (s.buf b).valid = true := by
    by_contra hv
    rw [Bool.not_eq_true] at hv
    obtain ⟨q, key', hq⟩ := (h.bufs b).fetched hv hdev
    exact nomatch (h.free_of_idle hb q).symm.trans (h.held_of_fetches hq).1
  have ht := h.untouched hb
  have hl := give_local s p key b fun c => { c with busy := true }
  have hinv : Inv (s.give p key b fun c => { c with busy := true }) :=
    h.give hcall hb hkey rfl (hkey ▸ h.key_ne hdev) (fun hv' => nomatch hv'.symm.trans hv)
      fun hv hd => (h.bufs b).clean hv hd ht
  refine hl.advance hinv (hl.contents_same h hinv ?_ hv ?_ ?_) (fun hd _ => ?_) (fun k hk => absurd rfl hk)
    fun key c hf => absurd hf (not_fetches_of_bget hcall key c)
  · rw [give_buf]
  · rw [give_buf]
    exact hv
  · rw [give_buf]
  · rw [give_buf]
    exact ⟨rfl, rfl, hd⟩

theorem Inv.bget_recycle (hnone : ∀ c, (s.buf c).key ≠ key)
    (hb : (s.buf b).busy = false) (hd : (s.buf b).dirty = false) :
    Advance s (.bget p) (s.give p key b fun c => ⟨key, true, false, false, c.data⟩) := by
  have ht := h.untouched hb
  have hl := give_local s p key b fun c => ⟨key, true, false, false, c.data⟩
  have hinv : Inv (s.give p key b fun c => ⟨key, true, false, false, c.data⟩) :=
    h.give hcall hb rfl rfl (fun c _ => (hnone c).symm) (fun _ => rfl) nofun
  have hinvalid : ((s.give p key b fun c => ⟨key, true, false, false, c.data⟩).buf b).valid = false := by rw [give_buf]
  refine hl.advance hinv (funext fun k => ?_) (fun hd' => nomatch hd.symm.trans hd') (fun k hk => absurd rfl hk)
    fun key c hf => absurd hf (not_fetches_of_bget hcall key c)
  change _ = s.contents k
  by_cases hold : (s.buf b).key = k ∧ (s.buf b).valid = true
  · obtain ⟨rfl, hv⟩ := hold
    rw [h.contents_eq hv, (h.bufs b).clean hv hd ht]
    refine contents_of_none fun c hc => ?_
    by_cases hcb : c = b
    · exact hcb ▸ hinvalid
    · rw [hl.buf c hcb] at hc ⊢
      exact absurd (h.keys b c ((h.bufs b).used (.inl hv)) hc.symm) (Ne.symm hcb)
  · refine contents_other hl.buf rfl ?_ (.inr hinvalid)
    rwa [not_and_or, Bool.not_eq_true] at hold

theorem Inv.bget :
    (∃ s', bget s p key = .ok s' ∧ Advance s (.bget p) s') ∨ bget s p key = .error (.panic "bget: no buffers") := by
  unfold Bcache.bget
  obtain ⟨b, hkey, hwalk⟩ | ⟨hnone, hwalk⟩ := h.links.walk fun b => (s.buf b).key = key
  · rw [decide_eq_true_eq] at hkey
    rw [hwalk]
    simp only
    split
    · refine .inl ⟨_, rfl, h.setCall ?_ rfl fun key' c hf => absurd hf (not_fetches_of_bget hcall key' c)⟩
      unfold CallOk
      simp
      exact h.dev_of_bget hcall
    · rename_i hb
      exact .inl ⟨_, rfl, h.bget_hit hcall hkey (Bool.eq_false_iff.mpr hb)⟩
  · have hnone : ∀ c, (s.buf c).key ≠ key := fun c => of_decide_eq_false (hnone c)
    rw [hwalk]
    simp only
    obtain ⟨b, hfree, hwalk⟩ | ⟨-, hwalk⟩ := h.links.symm.walk fun b => !(s.buf b).busy && !(s.buf b).dirty
    · rw [hwalk]
      simp only [Bool.and_eq_true, Bool.not_eq_true'] at hfree
      exact .inl ⟨_, rfl, h.bget_recycle hcall hnone hfree.1 hfree.2⟩
    · rw [hwalk]
      exact .inr rfl

end

/-! ### Runs -/

omit [DecidableEq P] in
theorem inv_boot (disk : Key → Block) : Inv (boot n P disk) where
  links := binit_linked n
  keys _ _ h := absurd rfl h
  busy _ := ⟨nofun, fun ⟨_, h⟩ => nomatch h⟩
  one _ _ _ h := nomatch h
  bufs _ := ⟨fun h => h.elim nofun nofun, fun _ => ⟨rfl, rfl⟩, fun _ h => absurd rfl h, nofun, nofun⟩
  calls _ := trivial

omit [DecidableEq P] in
theorem contents_boot (disk : Key → Block) : (boot n P disk).contents = disk :=
  funext fun _ => contents_of_none fun _ _ => rfl

omit [DecidableEq P] in
theorem owns_iff : s.owns p b ↔ s.call p = .idle ∧ s.held p b = true := by
  unfold State.owns
  refine and_congr_left fun _ => ⟨fun h => ?_, fun h => by rw [h]⟩
  split at h
  · assumption
  · cases h

theorem Inv.check (h : Inv s) (hcall : s.call p = .got key b) (hr : (if (s.buf b).valid then some (.ok (s.setCall p .idle)) else some (iderw s p b (.reading key b))) = some r) :
    (∃ s', r = .ok s' ∧ Advance s (.check p) s') ∨ r = .error (.panic "bget: no buffers") := by
  obtain ⟨hheld, hkey⟩ := h.held_of_fetches (.inl hcall)
  have honly : ∀ key' c, (s.call p).Fetches key' c → key' = key ∧ c = b := by
    intro key' c hf
    rw [hcall] at hf
    obtain hf | hf := hf
    · cases hf
      exact ⟨rfl, rfl⟩
    · cases hf
  split at hr
  · rename_i hv
    cases hr
    refine .inl ⟨_, rfl, h.setCall ?_ rfl fun key' c hf => .inl ((honly key' c hf).2 ▸ hv)⟩
    unfold CallOk
    simp
  · rename_i hv
    rw [Bool.not_eq_true] at hv
    simp only [iderw, h.busy_of_held hheld, hv, Bool.true_eq_false, if_false, Bool.false_eq_true, false_and] at hr
    cases hr
    refine .inl ⟨_, rfl, h.setCall ?_ rfl fun key' c hf => .inr ?_⟩
    · unfold CallOk
      simp
      exact ⟨hheld, hkey, hv⟩
    · obtain ⟨rfl, rfl⟩ := honly key' c hf
      exact .inr rfl

/-- Each step does what it should, or finds no buffer. -/
theorem Inv.step (h : Inv s) (hstep : step s a = some r) :
    (∃ s', r = .ok s' ∧ Advance s a s') ∨ r = .error (.panic "bget: no buffers") := by
  cases a with
  | bread p key =>
    simp only [Bcache.step] at hstep
    split at hstep
    · rename_i hcall
      split at hstep
      · rename_i hdev
        cases hstep
        refine .inl ⟨_, rfl, h.setCall ?_ rfl fun key c hf => absurd (hcall ▸ hf) (Call.idle_not_fetches c)⟩
        unfold CallOk
        simp
        exact hdev
      · cases hstep
    · cases hstep
  | bget p =>
    simp only [Bcache.step] at hstep
    split at hstep
    · rename_i key hcall
      cases hstep
      exact h.bget hcall
    · cases hstep
  | wake p =>
    simp only [Bcache.step] at hstep
    split at hstep
    · rename_i key b hcall
      cases hstep
      refine .inl ⟨_, rfl, h.setCall ?_ rfl fun key c hf => ?_⟩
      · have hp := h.calls p
        unfold CallOk at hp ⊢
        rw [hcall] at hp
        simp
        exact hp
      · rw [hcall] at hf
        exact hf.elim nofun nofun
    · cases hstep
  | check p =>
    simp only [Bcache.step] at hstep
    split at hstep
    · rename_i key b hcall
      exact h.check hcall hstep
    · cases hstep
  | complete p =>
    simp only [Bcache.step] at hstep
    split at hstep
    · rename_i hcall
      cases hstep
      exact .inl ⟨_, rfl, h.complete_read hcall⟩
    · rename_i hcall
      cases hstep
      exact .inl ⟨_, rfl, h.complete_write hcall⟩
    · cases hstep
  | store p b data =>
    simp only [Bcache.step] at hstep
    split at hstep
    · rename_i howns
      obtain ⟨hidle, hheld⟩ := owns_iff.mp howns
      cases hstep
      exact .inl ⟨_, rfl, h.store hidle hheld data⟩
    · cases hstep
  | logWrite p b =>
    simp only [Bcache.step] at hstep
    split at hstep
    · rename_i howns
      obtain ⟨hidle, hheld⟩ := owns_iff.mp howns
      cases hstep
      exact .inl ⟨_, rfl, h.logWrite hidle hheld⟩
    · cases hstep
  | bwrite p b =>
    simp only [Bcache.step] at hstep
    split at hstep
    · rename_i howns
      obtain ⟨hidle, hheld⟩ := owns_iff.mp howns
      have hok : iderw (s.setBuf b fun c => { c with dirty := true }) p b (.writing b) =
          .ok ((s.setBuf b fun c => { c with dirty := true }).setCall p (.writing b)) := by
        simp [iderw, State.setBuf, h.busy_of_held hheld]
      rw [if_neg (by simp [h.busy_of_held hheld]), hok] at hstep
      cases hstep
      exact .inl ⟨_, rfl, h.bwrite hidle hheld⟩
    · cases hstep
  | brelse p b =>
    simp only [Bcache.step] at hstep
    split at hstep
    · rename_i hok
      obtain ⟨hidle, hheld⟩ := owns_iff.mp hok.1
      cases hstep
      exact .inl (h.brelse hidle hheld hok.2)
    · cases hstep

theorem inv_of_reachable {disk m : Key → Block} (h : ((system n P disk).record disk lastStored).Reachable (s, m)) :
    Inv s ∧ s.contents = m := by
  refine h.invariant (I := fun t => Inv t.1 ∧ t.1.contents = t.2) (fun t ht => ?_) fun t a t' ht hstep => ?_
  · obtain ⟨hboot, hdisk⟩ := ht
    rw [hboot, hdisk]
    exact ⟨inv_boot disk, contents_boot disk⟩
  · obtain ⟨hinv, hm⟩ := ht
    obtain ⟨s', heq, hadv⟩ | heq := hinv.step hstep.1
    · cases heq
      exact ⟨hadv.inv, by rw [hstep.2, ← hm, hadv.contents]⟩
    · cases heq

/-- The cache with any number of buffers and processes is a store of blocks, with `m` what was stored last in each
sector and else what the disk had. -/
theorem bcache_refines_block_store {disk m : Key → Block}
    (h : ((system n P disk).record disk lastStored).Reachable (s, m)) :
    (∀ b c, (s.buf b).key.dev ≠ noDev → (s.buf b).key = (s.buf c).key → b = c) ∧
    (∀ b, (s.buf b).busy = true → ∃! p, s.held p b = true) ∧
    (∃ o : List (Fin n), o.Nodup ∧ (∀ b, b ∈ o) ∧ Path s.links.next none (o.map some) none ∧
      Path s.links.prev none (o.reverse.map some) none ∧
      ∀ x, s.links.prev (s.links.next x) = x ∧ s.links.next (s.links.prev x) = x) ∧
    (∀ a s', step s a = some (.ok s') →
      (∀ b, (s.buf b).dirty = true → (s.buf b).busy = false →
        (s'.buf b).key = (s.buf b).key ∧ (s'.buf b).data = (s.buf b).data ∧ (s'.buf b).dirty = true) ∧
      (∀ k, s'.disk k ≠ s.disk k →
        ∃ p b, a = .complete p ∧ s.call p = .writing b ∧ (s.buf b).key = k ∧ s'.disk k = (s.buf b).data) ∧
      ∀ p key b, (s.call p).Fetches key b → s'.call p = .idle →
        s'.held p b = true ∧ (s'.buf b).key = key ∧ (s'.buf b).data = m key) ∧
    ∀ a e, step s a = some (.error e) → e = .panic "bget: no buffers" := by
  obtain ⟨hinv, rfl⟩ := inv_of_reachable h
  refine ⟨hinv.keys, fun b hb => ?_, ?_, fun a s' hstep => ?_, fun a e hstep => ?_⟩
  · obtain ⟨p, hp⟩ := (hinv.busy b).mp hb
    exact ⟨p, hp, fun q hq => hinv.one q p b hq hp⟩
  · obtain ⟨o, hall, hring⟩ := hinv.links
    have hmem : ∀ x : Link n, x ∈ none :: o.map some := by
      rintro (_ | b)
      · exact mem_cons_self
      · exact mem_cons_of_mem none (mem_map_of_mem (hall b))
    refine ⟨o, List.Nodup.of_map some (nodup_cons.mp hring.nodup).2, hall, hring.next, ?_, fun x => ?_⟩
    · rw [map_reverse]
      exact hring.prev
    · exact ⟨hring.prev_next (hmem x), hring.next_prev (hmem x)⟩
  · obtain ⟨s'', heq, hadv⟩ | heq := hinv.step hstep
    · cases heq
      exact ⟨hadv.dirty, hadv.disk, hadv.returns⟩
    · cases heq
  · obtain ⟨s'', heq, -⟩ | heq := hinv.step hstep
    · cases heq
    · exact Except.error.inj heq

/-- One process stores into a sector while another waits for it. -/
def storeThenRead : List (Action 2 (Fin 2)) :=
  [.bread 0 ⟨0, 5⟩, .bget 0, .check 0, .complete 0, .bread 1 ⟨0, 5⟩, .bget 1, .store 0 0 fun _ => 7, .logWrite 0 0,
    .brelse 0 0, .bget 1]

theorem bcache_refines_block_store_run :
    ∃ s m, ((system 2 (Fin 2) fun _ _ => 0).record (fun _ _ => 0) lastStored).Reachable (s, m) ∧
      s.call 1 = .got ⟨0, 5⟩ 0 ∧
      ∃ s', step s (.check 1) = some (.ok s') ∧ (s'.buf 0).data = m ⟨0, 5⟩ ∧ (s'.buf 0).data 0 = 7 := by
  obtain ⟨s, hs, htest⟩ := System.exists_reachable_of_follow (fun _ _ => True) step (boot 2 (Fin 2) fun _ _ => 0)
    storeThenRead (fun s => s.call 1 = .got ⟨0, 5⟩ 0 ∧ (s.buf 0).valid = true ∧ (s.buf 0).data 0 = 7)
    (by decide +kernel)
  obtain ⟨hcall, hv, hdata⟩ := of_decide_eq_true htest
  have hreach : (system 2 (Fin 2) fun _ _ => 0).Reachable s := hs.of_restrict
  obtain ⟨m, hm⟩ := hreach.exists_record (fun _ _ => 0) lastStored
  have hstep : step s (.check 1) = some (.ok (s.setCall 1 .idle)) := by
    simp only [step, hcall, hv, if_true]
  have hidle : (s.setCall 1 .idle).call 1 = .idle := by simp
  obtain ⟨-, -, hlast⟩ :=
    ((bcache_refines_block_store hm).2.2.2.1 (.check 1) _ hstep).2.2 1 ⟨0, 5⟩ 0 (.inl hcall) hidle
  exact ⟨s, m, hm, hcall, _, hstep, hlast, hdata⟩

end RainOS.Bcache
