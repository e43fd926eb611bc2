import RainOS.Sh.Parse

/-!
# The shell accepts exactly its grammar

`parsecmd` panics when the line has tokens left, and otherwise ends the words of the command with NULs in the line itself.
The NULs go where no word has a byte, so each word is then read from memory as it was in the line.
-/

namespace RainOS.Sh

open List

theorem Cmd.map_congr {W V : Type} {f g : W → V} {cmd : Cmd W} (h : ∀ w ∈ cmd.words, f w = g w) :
    cmd.map f = cmd.map g := by
  induction cmd with
  | exec argv => exact congrArg Cmd.exec (map_congr_left h)
  | redir cmd file mode fd ih =>
    rw [Cmd.map, Cmd.map, h file (mem_cons_self ..), ih fun w hw => h w (mem_cons_of_mem _ hw)]
  | pipe left right ihl ihr | list left right ihl ihr =>
    rw [Cmd.map, Cmd.map, ihl fun w hw => h w (mem_append_left _ hw), ihr fun w hw => h w (mem_append_right _ hw)]
  | back cmd ih => rw [Cmd.map, Cmd.map, ih h]

theorem getD_set_zero (buf : List UInt8) (i j : Nat) : (buf.set j 0).getD i 0 = if i = j then 0 else buf.getD i 0 := by
  rw [getD_eq_getElem?_getD, getD_eq_getElem?_getD, getElem?_set]
  by_cases hij : i = j
  · subst hij
    rw [if_pos rfl, if_pos rfl]
    split <;> rfl
  · rw [if_neg (Ne.symm hij), if_neg hij]

theorem getD_drop (buf : List UInt8) (i j : Nat) : (buf.drop j).getD i 0 = buf.getD (j + i) 0 := by
  rw [getD_eq_getElem?_getD, getElem?_drop, getD_eq_getElem?_getD]

theorem ite_ite_zero {p q : Prop} [Decidable p] [Decidable q] (c : UInt8) :
    (if p then 0 else if q then 0 else c) = if p ∨ q then 0 else c := by
  by_cases hp : p <;> by_cases hq : q <;> simp [hp, hq]

theorem nulterminate_length (cmd : Cmd Word) (buf : List UInt8) : (nulterminate cmd buf).length = buf.length := by
  induction cmd generalizing buf with
  | exec argv =>
    rw [nulterminate]
    induction argv generalizing buf with
    | nil => rfl
    | cons w argv ih => exact (ih _).trans (length_set ..)
  | redir cmd file mode fd ih => exact (length_set ..).trans (ih buf)
  | pipe left right ihl ihr | list left right ihl ihr => exact (ihr _).trans (ihl buf)
  | back cmd ih => exact ih buf

/-- NULs are written behind the words and nowhere else. -/
theorem nulterminate_getD (cmd : Cmd Word) (buf : List UInt8) (i : Nat) :
    (nulterminate cmd buf).getD i 0 = if i ∈ cmd.words.map Word.eq then 0 else buf.getD i 0 := by
  induction cmd generalizing buf with
  | exec argv =>
    rw [nulterminate, Cmd.words]
    induction argv generalizing buf with
    | nil => rfl
    | cons w argv ih =>
      rw [foldl_cons, ih, getD_set_zero, ite_ite_zero, map_cons]
      exact if_congr (by rw [mem_cons, or_comm]) rfl rfl
  | redir cmd file mode fd ih =>
    rw [nulterminate, getD_set_zero, ih, ite_ite_zero, Cmd.words, map_cons]
    exact if_congr mem_cons.symm rfl rfl
  | pipe left right ihl ihr | list left right ihl ihr =>
    rw [nulterminate, ihr, ihl, ite_ite_zero, Cmd.words, map_append]
    exact if_congr (by rw [mem_append, or_comm]) rfl rfl
  | back cmd ih => exact ih buf

theorem takeWhile_eq_take {buf : List UInt8} {es : Nat} (h : IsString buf es) :
    buf.takeWhile (· ≠ 0) = buf.take es := by
  induction buf generalizing es with
  | nil => rw [take_nil, takeWhile_nil]
  | cons c cs ih =>
    cases es with
    | zero =>
      have hc : c = 0 := h.nul
      rw [hc]
      rfl
    | succ es =>
      have hc : c ≠ 0 := h.bytes 0 (Nat.succ_pos es)
      rw [takeWhile_cons, if_pos (decide_eq_true hc), take_succ_cons]
      exact congrArg (c :: ·) (ih ⟨fun i hi => h.bytes (i + 1) (Nat.succ_lt_succ hi), h.nul⟩)

theorem cstr_nulterminate {buf : List UInt8} {es : Nat} {cmd : Cmd Word} (h : IsString buf es)
    (hgood : ∀ w ∈ cmd.words, w.Good buf es) {w : Word} (hw : w ∈ cmd.words) :
    cstr (nulterminate cmd buf) w.q = w.read buf := by
  have hword := hgood w hw
  -- no word ends inside another one
  have hinside : ∀ i, w.q ≤ i → i < w.eq → (nulterminate cmd buf).getD i 0 = buf.getD i 0 := by
    intro i hi hlt
    rw [nulterminate_getD, if_neg]
    intro hmem
    obtain ⟨x, hx, rfl⟩ := mem_map.mp hmem
    have hapart := hword.apart (hgood x hx)
    omega
  have hstring : IsString ((nulterminate cmd buf).drop w.q) (w.eq - w.q) := by
    refine ⟨fun i hi => ?_, ?_⟩
    · rw [getD_drop, hinside _ (Nat.le_add_right ..) (by omega)]
      exact h.bytes _ (by have := hword.le_es; omega)
    · rw [getD_drop, Nat.add_sub_cancel' hword.lt.le, nulterminate_getD, if_pos (mem_map_of_mem hw)]
  rw [cstr, takeWhile_eq_take hstring, Word.read]
  refine ext_getElem (by simp only [length_take, length_drop, nulterminate_length]) fun i hi hi' => ?_
  rw [length_take, length_drop] at hi
  rw [getElem_take, getElem_take, getElem_drop, getElem_drop, ← getD_eq_getElem _ 0,
    ← getD_eq_getElem _ 0]
  exact hinside _ (Nat.le_add_right ..) (by omega)

theorem tokens_length_le (text : List UInt8) : (tokens text).length ≤ text.length := by
  induction hlen : text.length using Nat.strong_induction_on generalizing text with
  | _ n ih =>
    rw [tokens_eq]
    split
    · exact Nat.zero_le _
    · rename_i t rest hfirst
      have hlt := Nat.lt_of_lt_of_le (firstToken_length hfirst) (dropWhile_suffix _).length_le
      have hrest := ih rest.length (hlen ▸ hlt) rest rfl
      rw [length_cons]
      omega

theorem rest_zero (buf : List UInt8) : rest buf (strlen buf) 0 = cstr buf 0 := by
  rw [rest, cstr, drop_zero, drop_zero, takeWhile_eq_take (isString_strlen buf)]

def lineTokens (buf : List UInt8) : List Token := tokens (cstr buf 0)

theorem toks_zero (buf : List UInt8) : toks buf (strlen buf) 0 = lineTokens buf := by
  rw [toks, rest_zero]
  rfl

variable {buf : List UInt8} {fuel s : Nat}

theorem parsecmd_eq {cmd : Cmd Word} (hline : parseline buf (strlen buf) fuel 0 = .ok (cmd, s)) (hs : s ≤ strlen buf) :
    parsecmd fuel buf =
      if toks buf (strlen buf) s = [] then .ok (cmd, nulterminate cmd buf)
      else .error (.leftovers (skip buf (strlen buf) s)) := by
  have h := isString_strlen buf
  have hend : toks buf (strlen buf) s = [] ↔ skip buf (strlen buf) s = strlen buf := by
    refine ⟨skip_of_toks_nil h hs, fun heq => ?_⟩
    rw [← toks_skip h hs, heq, toks_es]
  rw [parsecmd, hline]
  dsimp only [bind, Except.bind]
  rw [peek_spec h hs rfl]
  dsimp only
  rw [if_congr (not_congr hend.symm) rfl rfl, ite_not]
  rfl

/-- A line that derives is accepted, as the command it stands for. -/
theorem parsecmd_complete {tree : Cmd (List UInt8)} (hfuel : 4 * (lineTokens buf).length + 4 ≤ fuel)
    (hder : Derives .line (lineTokens buf) tree) :
    ∃ cmd, parsecmd fuel buf = .ok (cmd, nulterminate cmd buf) ∧ cmd.map (Word.read buf) = tree := by
  have h := isString_strlen buf
  have htoks : toks buf (strlen buf) 0 = lineTokens buf ++ [] := by rw [toks_zero, append_nil]
  have hn : 4 * (toks buf (strlen buf) 0).length + Nonterminal.line.depth ≤ fuel := by
    rw [toks_zero]
    exact hfuel
  obtain ⟨cmd, s, hr, hs, htree, hend⟩ := parse_complete h hder (Nat.zero_le _) hn htoks (.inl rfl)
  refine ⟨cmd, ?_, htree⟩
  rw [parsecmd_eq hr hs, if_pos hend]

/-- What is accepted derives, and its words are words of the line. -/
theorem parsecmd_sound (hfuel : 4 * (lineTokens buf).length + 4 ≤ fuel) :
    (∃ cmd, parsecmd fuel buf = .ok (cmd, nulterminate cmd buf) ∧
      Derives .line (lineTokens buf) (cmd.map (Word.read buf)) ∧ ∀ w ∈ cmd.words, w.Good buf (strlen buf)) ∨
    (∃ msg, parsecmd fuel buf = .error (.panic msg)) ∨ ∃ s, parsecmd fuel buf = .error (.leftovers s) := by
  have h := isString_strlen buf
  have hn : 4 * (toks buf (strlen buf) 0).length + Nonterminal.line.depth ≤ fuel := by
    rw [toks_zero]
    exact hfuel
  rcases parse_answers h (Nat.zero_le _) hn with ⟨cmd, s, ts, hr, hacc⟩ | ⟨msg, hmsg⟩
  · rw [parsecmd_eq hr hacc.le]
    split
    · rename_i hend
      have hts : lineTokens buf = ts := by rw [← toks_zero, hacc.toks, hend, append_nil]
      rw [hts]
      exact .inl ⟨cmd, rfl, hacc.derives, hacc.words⟩
    · exact .inr (.inr ⟨_, rfl⟩)
  · refine .inr (.inl ⟨msg, ?_⟩)
    change parseline buf (strlen buf) fuel 0 = _ at hmsg
    rw [parsecmd, hmsg]
    rfl

theorem fuel_enough (buf : List UInt8) (k : Nat) : 4 * (lineTokens buf).length + 4 ≤ 4 * buf.length + 4 + k := by
  have hlen : (lineTokens buf).length ≤ buf.length :=
    Nat.le_trans (tokens_length_le _) (( takeWhile_prefix _).length_le)
  omega

/-- `parsecmd` ends on every string, returns exactly for the lines of the grammar, and then returns the command that the
line stands for. -/
theorem parsecmd_grammar (buf : List UInt8) (k : Nat) :
    parsecmd (4 * buf.length + 4 + k) buf ≠ .error .fuel ∧
    ((∃ r, parsecmd (4 * buf.length + 4 + k) buf = .ok r) ↔ ∃ tree, Derives .line (lineTokens buf) tree) ∧
    ∀ cmd buf', parsecmd (4 * buf.length + 4 + k) buf = .ok (cmd, buf') →
      ∀ tree, Derives .line (lineTokens buf) tree ↔ tree = cmd.map fun w => cstr buf' w.q := by
  have hfuel := fuel_enough buf k
  generalize 4 * buf.length + 4 + k = fuel at hfuel ⊢
  rcases parsecmd_sound hfuel with ⟨cmd, hok, hder, hgood⟩ | herror
  · rw [← Cmd.map_congr fun w hw => cstr_nulterminate (isString_strlen buf) hgood hw] at hder
    refine ⟨hok ▸ nofun, ⟨fun _ => ⟨_, hder⟩, fun _ => ⟨_, hok⟩⟩, fun cmd' buf' hok' tree => ?_⟩
    cases hok.symm.trans hok'
    refine ⟨fun htree => ?_, fun heq => heq ▸ hder⟩
    obtain ⟨c, hc, rfl⟩ := parsecmd_complete hfuel htree
    cases hok.symm.trans hc
    obtain ⟨c', hc', hread⟩ := parsecmd_complete hfuel hder
    cases hok.symm.trans hc'
    exact hread
  · have hne : ∀ r, parsecmd fuel buf ≠ .ok r := by
      rcases herror with ⟨msg, hmsg⟩ | ⟨s, hs⟩
      · exact fun r hr => nomatch hmsg.symm.trans hr
      · exact fun r hr => nomatch hs.symm.trans hr
    refine ⟨?_, ⟨fun ⟨r, hr⟩ => absurd hr (hne r), fun ⟨tree, htree⟩ => ?_⟩, fun cmd buf' hok => absurd hok (hne _)⟩
    · rcases herror with ⟨msg, hmsg⟩ | ⟨s, hs⟩
      · exact hmsg ▸ nofun
      · exact hs ▸ nofun
    · obtain ⟨cmd, hok, -⟩ := parsecmd_complete hfuel htree
      exact ⟨_, hok⟩

/-- The words of an accepted line are strings in memory after `nulterminate`, with the text that their tokens have in the
line. No NUL is written into a word or over its start, and none away from the ends of words. -/
theorem parsecmd_strings (buf : List UInt8) (k : Nat) {cmd : Cmd Word} {buf' : List UInt8}
    (hok : parsecmd (4 * buf.length + 4 + k) buf = .ok (cmd, buf')) :
    Derives .line (lineTokens buf) (cmd.map (Word.read buf)) ∧
    (∀ w ∈ cmd.words, w.q < w.eq ∧ w.eq ≤ strlen buf ∧ cstr buf' w.q = w.read buf ∧ buf'.getD w.eq 0 = 0) ∧
    (∀ w ∈ cmd.words, ∀ x ∈ cmd.words, x.eq < w.q ∨ w.eq ≤ x.eq) ∧
    ∀ i, i ∉ cmd.words.map Word.eq → buf'.getD i 0 = buf.getD i 0 := by
  rcases parsecmd_sound (fuel_enough buf k) with ⟨cmd', hok', hder, hgood⟩ | ⟨msg, hmsg⟩ | ⟨s, hs⟩
  · cases hok'.symm.trans hok
    refine ⟨hder, fun w hw => ?_, fun w hw x hx => (hgood w hw).apart (hgood x hx), fun i hi => ?_⟩
    · refine ⟨(hgood w hw).lt, (hgood w hw).le_es, cstr_nulterminate (isString_strlen buf) hgood hw, ?_⟩
      rw [nulterminate_getD, if_pos (mem_map_of_mem hw)]
    · rw [nulterminate_getD, if_neg hi]
  · exact nomatch hmsg.symm.trans hok
  · exact nomatch hs.symm.trans hok

/-- `(a >f)&`. -/
theorem parsecmd_strings_block :
    cstr (chars ['(', 'a', '\x00', '>', 'f', '\x00', '&']) 4 = chars ['f'] := by
  have hok : parsecmd (4 * 7 + 4 + 0) (chars ['(', 'a', ' ', '>', 'f', ')', '&']) =
      .ok (.back (.redir (.exec [⟨1, 2⟩]) ⟨4, 5⟩ 0x201 1), chars ['(', 'a', '\x00', '>', 'f', '\x00', '&']) := by
    decide +kernel
  obtain ⟨-, hwords, -⟩ := parsecmd_strings _ 0 hok
  exact (hwords ⟨4, 5⟩ (mem_cons_self ..)).2.2.1

end RainOS.Sh
