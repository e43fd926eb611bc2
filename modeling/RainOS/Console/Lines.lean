import RainOS.Console.Code

/-!
# Lines of console input

The buffer holds the bytes that were committed and not yet read, and after them the line that is being edited. The three
indices are positions in the stream of all those bytes, cut off at 32 bits. Editing and typing change the stream only
behind the committed bytes.
-/

namespace RainOS.Console

open Function List

variable {i : Input} {committed draft : List UInt8} {r k a b target n : Nat} {x c : UInt8}

/-- The bytes `committed` and behind them the `draft` went into the buffer, and the first `r` of them have been read. -/
structure Tracks (i : Input) (committed draft : List UInt8) (r : Nat) : Prop where
  read : i.r = .ofNat r
  write : i.w = .ofNat committed.length
  edit : i.e = .ofNat (committed ++ draft).length
  behind : r ≤ committed.length
  room : (committed ++ draft).length ≤ r + 128
  data : Lies 128 i.buf r (committed ++ draft)

namespace Tracks

theorem length_le (committed draft : List UInt8) : committed.length ≤ (committed ++ draft).length := by
  rw [length_append]
  exact Nat.le_add_right ..

section

variable (h : Tracks i committed draft r)
include h

theorem empty_iff : i.r = i.w ↔ r = committed.length := by
  have hroom := h.room
  have hle := (length_le committed draft)
  rw [h.read, h.write, ofNat_eq_iff h.behind (by omega)]

theorem draft_iff : i.e = i.w ↔ draft = [] := by
  have hroom := h.room
  have hbehind := h.behind
  have hle := (length_le committed draft)
  rw [eq_comm, h.write, h.edit, ofNat_eq_iff hle (by omega), ← length_eq_zero_iff, length_append]
  omega

theorem sub_toNat : (i.e - i.r).toNat = (committed ++ draft).length - r := by
  have hroom := h.room
  have hbehind := h.behind
  have hle := (length_le committed draft)
  rw [h.edit, h.read, toNat_ofNat_sub (by omega) (by omega)]

theorem room_iff : i.e - i.r < inputBuf ↔ (committed ++ draft).length < r + 128 := by
  have hsub : (i.e - i.r).toNat = _ := h.sub_toNat
  have hbehind := h.behind
  have hle := (length_le committed draft)
  rw [UInt32.lt_iff_toNat_lt, hsub]
  change _ < 128 ↔ _
  omega

theorem get (hk : r ≤ k) (hx : (committed ++ draft)[k]? = some x) :
    i.get (.ofNat k) = x := by
  rw [Input.get, toNat_ofNat_mod (by decide)]
  exact h.data k x hk hx

theorem bytes (ha : r ≤ a) (hab : a ≤ b) (hb : b ≤ (committed ++ draft).length) :
    i.bytes (.ofNat a) (.ofNat b) = ((committed ++ draft).drop a).take (b - a) := by
  have hroom := h.room
  rw [Input.bytes, toNat_ofNat_sub hab (by omega)]
  apply ext_getElem?
  intro k
  rw [getElem?_map, getElem?_take]
  split
  · rename_i hk
    have hlt : a + k < (committed ++ draft).length := by omega
    rw [getElem?_range hk, getElem?_drop, getElem?_eq_getElem hlt, Option.map_some, ← UInt32.ofNat_add]
    exact congrArg some (h.get (ha.trans (Nat.le_add_right ..)) (getElem?_eq_getElem hlt))
  · rename_i hk
    rw [getElem?_eq_none (by rw [length_range]; omega), Option.map_none]

theorem bytes_draft : i.bytes i.w i.e = draft := by
  rw [h.write, h.edit, h.bytes h.behind (length_le committed draft) le_rfl, drop_left, take_of_length_le]
  rw [length_append]
  omega

theorem bytes_unread : i.bytes i.r i.w = committed.drop r := by
  rw [h.read, h.write, h.bytes le_rfl h.behind (length_le committed draft), drop_append_of_le_length h.behind, take_left']
  rw [length_drop]

end

theorem erase (h : Tracks i committed (draft ++ [x]) r) :
    Tracks { i with e := i.e - 1 } committed draft r := by
  have hlength : (committed ++ (draft ++ [x])).length = (committed ++ draft).length + 1 := by
    rw [← append_assoc, length_append, length_singleton]
  have hroom := h.room
  refine ⟨h.read, h.write, ?_, h.behind, by omega, h.data.shorten ?_⟩
  · dsimp only
    rw [h.edit, hlength, UInt32.ofNat_add]
    exact UInt32.add_sub_cancel _ _
  · rw [← append_assoc]
    exact prefix_append ..

section

variable (h : Tracks i committed draft r)
include h

theorem backspace (hne : i.e ≠ i.w) :
    ∃ draft', Tracks { i with e := i.e - 1 } committed draft' r := by
  rw [Ne, h.draft_iff] at hne
  obtain ⟨draft', x, rfl⟩ := eq_nil_or_concat' draft |>.resolve_left hne
  exact ⟨draft', h.erase⟩

theorem killLine (fuel : Nat) : ∃ draft', Tracks (i.killLine fuel) committed draft' r := by
  induction fuel generalizing i draft with
  | zero => exact ⟨draft, h⟩
  | succ fuel ih =>
    rw [Input.killLine]
    split
    · rename_i hcond
      obtain ⟨draft', herased⟩ := h.backspace hcond.1
      exact ih herased
    · exact ⟨draft, h⟩

theorem push (hroom : (committed ++ draft).length < r + 128) (x : UInt8) :
    Tracks { i with buf := store i.buf (i.e % inputBuf).toNat x, e := i.e + 1 } committed (draft ++ [x]) r := by
  have happend : committed ++ (draft ++ [x]) = committed ++ draft ++ [x] := (append_assoc ..).symm
  have hlength : (committed ++ (draft ++ [x])).length = (committed ++ draft).length + 1 := by
    rw [happend, length_append, length_singleton]
  refine ⟨h.read, h.write, ?_, h.behind, by omega, ?_⟩
  · rw [hlength, h.edit]
    exact (UInt32.ofNat_add _ 1).symm
  · rw [happend, h.edit, toNat_ofNat_mod (by decide)]
    exact h.data.push hroom x

theorem commit : Tracks { i with w := i.e } (committed ++ draft) [] r := by
  refine ⟨h.read, h.edit, ?_, h.behind.trans (length_le committed draft), ?_, ?_⟩
  · rw [append_nil]
    exact h.edit
  · rw [append_nil]
    exact h.room
  · rw [append_nil]
    exact h.data

theorem take (hne : i.r ≠ i.w) :
    Tracks { i with r := i.r + 1 } committed draft (r + 1) ∧
      committed.drop r = i.get i.r :: committed.drop (r + 1) := by
  rw [Ne, h.empty_iff] at hne
  have hbehind := h.behind
  have hlt : r < committed.length := by omega
  have hroom := h.room
  refine ⟨⟨?_, h.write, h.edit, hlt, by omega, h.data.advance (Nat.le_succ r)⟩, ?_⟩
  · rw [h.read]
    exact (UInt32.ofNat_add r 1).symm
  · have hx : (committed ++ draft)[r]? = some committed[r] := by
      rw [getElem?_append_left hlt, getElem?_eq_getElem hlt]
    rw [drop_eq_getElem_cons hlt, h.read, h.get le_rfl hx]

end

end Tracks

def Stretch.taken (a : Stretch) : List UInt8 := a.bytes ++ if a.eof then [ctrl 'D'] else []

/-- How a stretch ends: it stores no ^D and nothing after a newline, and it takes ^D only when the call has stored nothing. -/
structure Stretch.Fits (target n : Nat) (a : Stretch) : Prop where
  plain : ctrl 'D' ∉ a.bytes
  line : newline ∉ a.bytes.dropLast
  length : a.bytes.length ≤ n
  eof : a.eof = true → n = target ∧ a.bytes = [] ∧ a.sleeps = false
  sleeps : a.sleeps = true → newline ∉ a.bytes ∧ a.bytes.length < n ∧ a.input.r = a.input.w
  saved : a.sleeps = false → a.eof = false → 0 < n → a.bytes = [] → n < target

theorem newline_notMem_dropLast_cons {bytes : List UInt8} (hc : c ≠ newline) (h : newline ∉ bytes.dropLast) :
    newline ∉ (c :: bytes).dropLast := by
  cases bytes with
  | nil => exact not_mem_nil
  | cons b bytes =>
    rw [dropLast_cons_cons, mem_cons, not_or]
    exact ⟨hc.symm, h⟩

theorem drain_fits (i : Input) (hn : n ≤ target) : (i.drain target n).Fits target n := by
  induction n generalizing i with
  | zero => exact ⟨not_mem_nil, not_mem_nil, le_rfl, nofun, nofun, fun _ _ hpos => absurd hpos (Nat.lt_irrefl 0)⟩
  | succ n ih =>
    rw [Input.drain]
    split
    · rename_i hempty
      exact ⟨not_mem_nil, not_mem_nil, Nat.zero_le _, nofun, fun _ => ⟨not_mem_nil, Nat.succ_pos n, hempty⟩,
        nofun⟩
    · dsimp only
      split
      · split
        · rename_i hlt
          exact ⟨not_mem_nil, not_mem_nil, Nat.zero_le _, nofun, nofun, fun _ _ _ _ => hlt⟩
        · exact ⟨not_mem_nil, not_mem_nil, Nat.zero_le _, fun _ => ⟨by omega, rfl, rfl⟩, nofun, nofun⟩
      · rename_i hplain
        split
        · rename_i hline
          refine ⟨?_, not_mem_nil, Nat.succ_le_succ (Nat.zero_le n), nofun, nofun, nofun⟩
          rw [mem_singleton]
          exact fun heq => hplain heq.symm
        · rename_i hline
          have hrest := ih { i with r := i.r + 1 } (by omega)
          refine ⟨?_, newline_notMem_dropLast_cons hline hrest.line, Nat.succ_le_succ hrest.length, fun heof => ?_,
            fun hsleeps => ?_, nofun⟩
          · rw [mem_cons, not_or]
            exact ⟨fun heq => hplain heq.symm, hrest.plain⟩
          · have hfull := (hrest.eof heof).1
            omega
          · obtain ⟨hnone, hlt, hend⟩ := hrest.sleeps hsleeps
            refine ⟨?_, Nat.succ_lt_succ hlt, hend⟩
            rw [mem_cons, not_or]
            exact ⟨fun heq => hline heq.symm, hnone⟩

theorem Tracks.drain (h : Tracks i committed draft r) (target n : Nat) :
    Tracks (i.drain target n).input committed draft (r + (i.drain target n).taken.length) ∧
      committed.drop r = (i.drain target n).taken ++ committed.drop (r + (i.drain target n).taken.length) := by
  induction n generalizing i r with
  | zero => exact ⟨h, rfl⟩
  | succ n ih =>
    rw [Input.drain]
    split
    · exact ⟨h, rfl⟩
    · rename_i hne
      obtain ⟨htracks, hdrop⟩ := h.take hne
      dsimp only
      split
      · rename_i heof
        split
        · rw [UInt32.add_sub_cancel]
          exact ⟨h, rfl⟩
        · refine ⟨htracks, ?_⟩
          rw [hdrop, heof]
          rfl
      · split
        · exact ⟨htracks, hdrop⟩
        · obtain ⟨hrest, hmore⟩ := ih htracks
          generalize Input.drain target n { i with r := i.r + 1 } = rest at hrest hmore ⊢
          have htaken : Stretch.taken { rest with bytes := i.get i.r :: rest.bytes } = i.get i.r :: rest.taken := rfl
          have hlength : r + (rest.taken.length + 1) = r + 1 + rest.taken.length := by omega
          rw [htaken, length_cons, hlength]
          refine ⟨hrest, ?_⟩
          rw [hdrop, cons_append, ← hmore]

end RainOS.Console
