import Mathlib.Data.Bool.Basic
import Mathlib.Data.List.DropRight
import Mathlib.Data.List.GetD
import RainOS.Sh.Grammar

/-!
# Pointers and tokens

What is left of the line at a pointer, and the tokens in it. `gettoken` takes the first of them and `peek` looks at it; the
callers need to know nothing else about the bytes.
-/

namespace RainOS.Sh

open List

structure IsString (buf : List UInt8) (es : Nat) : Prop where
  bytes : ∀ i, i < es → buf.getD i 0 ≠ 0
  nul : buf.getD es 0 = 0

theorem isString_strlen (buf : List UInt8) : IsString buf (strlen buf) := by
  induction buf with
  | nil => exact ⟨nofun, rfl⟩
  | cons c cs ih =>
    by_cases hc : c = 0
    · subst hc
      exact ⟨nofun, rfl⟩
    · have hlen : strlen (c :: cs) = strlen cs + 1 := by
        rw [strlen, takeWhile_cons, if_pos (decide_eq_true hc)]
        rfl
      rw [hlen]
      refine ⟨fun i hi => ?_, ih.nul⟩
      cases i with
      | zero => exact hc
      | succ i => exact ih.bytes i (Nat.lt_of_succ_lt_succ hi)

def rest (buf : List UInt8) (es s : Nat) : List UInt8 := (buf.take es).drop s

def toks (buf : List UInt8) (es s : Nat) : List Token := tokens (rest buf es s)

def Word.read (buf : List UInt8) (w : Word) : List UInt8 := (buf.drop w.q).take (w.eq - w.q)

variable {buf text cs : List UInt8} {es s n q : Nat} {c : UInt8}

theorem IsString.le_length (h : IsString buf es) : es ≤ buf.length := by
  cases es with
  | zero => exact Nat.zero_le _
  | succ es =>
    by_contra hlt
    exact h.bytes es (Nat.lt_succ_self es) (getD_eq_default _ _ (by omega))

theorem rest_cons (h : IsString buf es) (hs : s < es) : rest buf es s = buf.getD s 0 :: rest buf es (s + 1) := by
  have hlen := h.le_length
  have hlt : s < (buf.take es).length := by
    rw [length_take]
    omega
  rw [rest, drop_eq_getElem_cons hlt, getElem_take, getD_eq_getElem _ _ (by omega)]
  rfl

theorem rest_nil (hs : es ≤ s) : rest buf es s = [] :=
  drop_eq_nil_of_le (Nat.le_trans (length_take_le ..) hs)

theorem head?_rest (h : IsString buf es) (hs : s ≤ es) (hc : c ≠ 0) :
    (rest buf es s).head? = some c ↔ buf.getD s 0 = c := by
  rcases Nat.lt_or_eq_of_le hs with hlt | rfl
  · rw [rest_cons h hlt, head?_cons, Option.some.injEq]
  · rw [rest_nil (Nat.le_refl s), h.nul]
    exact ⟨nofun, fun heq => absurd heq.symm hc⟩

theorem scan_spec (h : IsString buf es) (p : UInt8 → Bool) (hs : s + n = es) :
    scan buf p n s = s + ((rest buf es s).takeWhile p).length ∧ scan buf p n s ≤ es ∧
      rest buf es (scan buf p n s) = (rest buf es s).dropWhile p := by
  induction n generalizing s with
  | zero =>
    have hle : s ≤ es := Nat.le_of_eq hs
    rw [scan, rest_nil (Nat.le_of_eq hs.symm : es ≤ s)]
    exact ⟨rfl, hle, rfl⟩
  | succ n ih =>
    have hlt : s < es := by omega
    rw [scan, rest_cons h hlt]
    split
    · rename_i hp
      rw [takeWhile_cons_of_pos hp, dropWhile_cons_of_pos hp]
      obtain ⟨heq, hle, hrest⟩ := ih (s := s + 1) (by omega)
      refine ⟨?_, hle, hrest⟩
      rw [heq, length_cons]
      omega
    · rename_i hp
      rw [takeWhile_cons_of_neg hp, dropWhile_cons_of_neg hp, rest_cons h hlt]
      exact ⟨rfl, Nat.le_of_lt hlt, rfl⟩

theorem skip_spec (h : IsString buf es) (hs : s ≤ es) :
    skip buf es s ≤ es ∧ rest buf es (skip buf es s) = (rest buf es s).dropWhile isSpace := by
  obtain ⟨-, hle, hrest⟩ := scan_spec h (strchr whitespace) (Nat.add_sub_cancel' hs)
  exact ⟨hle, hrest⟩

theorem scan_bytes (buf : List UInt8) (p : UInt8 → Bool) (n s : Nat) :
    s ≤ scan buf p n s ∧ (∀ i, s ≤ i → i < scan buf p n s → p (buf.getD i 0) = true) ∧
      (scan buf p n s = s + n ∨ p (buf.getD (scan buf p n s) 0) = false) := by
  induction n generalizing s with
  | zero => exact ⟨Nat.le_refl s, fun i hi hlt => absurd hlt (Nat.not_lt.mpr hi), .inl rfl⟩
  | succ n ih =>
    rw [scan]
    split
    · rename_i hp
      obtain ⟨hle, hall, hend⟩ := ih (s + 1)
      refine ⟨Nat.le_of_succ_le hle, fun i hi hlt => ?_, hend.imp_left fun h => h.trans (by omega)⟩
      rcases Nat.eq_or_lt_of_le hi with rfl | hi
      · exact hp
      · exact hall i hi hlt
    · rename_i hp
      exact ⟨Nat.le_refl s, fun i hi hlt => absurd hlt (Nat.not_lt.mpr hi), .inr (Bool.eq_false_of_not_eq_true hp)⟩

theorem tokens_eq (text : List UInt8) : tokens text =
    match firstToken (text.dropWhile isSpace) with
    | none => []
    | some (t, rest) => t :: tokens rest := by
  rw [tokens]
  split <;> simp_all

theorem tokens_dropWhile (text : List UInt8) : tokens (text.dropWhile isSpace) = tokens text := by
  rw [tokens_eq, tokens_eq text, dropWhile_idempotent]

theorem toks_skip (h : IsString buf es) (hs : s ≤ es) : toks buf es (skip buf es s) = toks buf es s := by
  rw [toks, (skip_spec h hs).2, tokens_dropWhile]
  rfl

def Token.ret : Token → UInt8
  | .less => chr '<'
  | .greater => chr '>'
  | .append => chr '+'
  | .pipe => chr '|'
  | .amp => chr '&'
  | .semi => chr ';'
  | .left => chr '('
  | .right => chr ')'
  | .word _ => chr 'a'

def Token.first : Token → Option UInt8
  | .append => chr '>'
  | .word _ => none
  | t => t.ret

theorem symbol_cases (c : UInt8) :
    (∃ t, symbol? c = some t ∧ t ≠ .greater ∧ t.ret = c ∧ t.first = some c ∧
      strchr (chars ['|', '(', ')', ';', '&', '<']) c = true ∧ strchr symbols c = true) ∨
    c = chr '>' ∨
    symbol? c = none ∧ strchr (chars ['|', '(', ')', ';', '&', '<']) c = false ∧ c ≠ chr '>' ∧ strchr symbols c = false := by
  by_cases hc : c ∈ symbols
  · simp only [symbols, chars, map_cons, map_nil, mem_cons, not_mem_nil, or_false] at hc
    rcases hc with rfl | rfl | rfl | rfl | rfl | rfl | rfl
    · exact .inl ⟨.less, by decide⟩
    · exact .inl ⟨.pipe, by decide⟩
    · exact .inr (.inl rfl)
    · exact .inl ⟨.amp, by decide⟩
    · exact .inl ⟨.semi, by decide⟩
    · exact .inl ⟨.left, by decide⟩
    · exact .inl ⟨.right, by decide⟩
  · simp only [symbols, chars, map_cons, map_nil, mem_cons, not_mem_nil, or_false, not_or] at hc
    obtain ⟨h1, h2, h3, h4, h5, h6, h7⟩ := hc
    refine .inr (.inr ⟨?_, ?_, h3, ?_⟩)
    · simp [symbol?, h1, h2, h3, h4, h5, h6, h7]
    · simp [strchr, chars, h1, h2, h4, h5, h6, h7]
    · simp [strchr, symbols, chars, h1, h2, h3, h4, h5, h6, h7]

structure Word.Good (buf : List UInt8) (es : Nat) (w : Word) : Prop where
  lt : w.q < w.eq
  le_es : w.eq ≤ es
  bytes : ∀ i, w.q ≤ i → i < w.eq → isWordChar (buf.getD i 0) = true
  ends : w.eq = es ∨ isWordChar (buf.getD w.eq 0) = false

theorem Word.read_eq (w : Word) (hle : w.eq ≤ es) : w.read buf = (rest buf es w.q).take (w.eq - w.q) := by
  rw [Word.read, rest, drop_take, take_take, Nat.min_eq_left (Nat.sub_le_sub_right hle _)]

theorem Word.Good.apart {w x : Word} (hw : w.Good buf es) (hx : x.Good buf es) : x.eq < w.q ∨ w.eq ≤ x.eq := by
  by_contra! hin
  rcases hx.ends with hend | hend
  · have hle := hw.le_es
    omega
  · exact nomatch hend.symm.trans (hw.bytes _ hin.1 hin.2)

theorem scan_word (h : IsString buf es) (hq : q < es) (hc : isWordChar (buf.getD q 0) = true) :
    Word.Good buf es ⟨q, scan buf isWordChar (es - q) q⟩ ∧
    Word.read buf ⟨q, scan buf isWordChar (es - q) q⟩ = (rest buf es q).takeWhile isWordChar := by
  obtain ⟨hlen, hle, -⟩ := scan_spec h isWordChar (Nat.add_sub_cancel' hq.le)
  obtain ⟨hq', hall, hend⟩ := scan_bytes buf isWordChar (es - q) q
  have hend := hend.imp_left fun heq => heq.trans (Nat.add_sub_cancel' hq.le)
  have hlt : q < scan buf isWordChar (es - q) q := by
    refine hq'.lt_of_ne fun heq => ?_
    rw [← heq, hc] at hend
    exact hend.elim hq.ne nofun
  refine ⟨⟨hlt, hle, hall, hend⟩, ?_⟩
  rw [Word.read_eq ⟨q, _⟩ hle, hlen, Nat.add_sub_cancel_left]
  exact (prefix_iff_eq_take.mp ( takeWhile_prefix _)).symm

/-- The call of `gettoken` reads a token that the text follows. -/
structure Reads (buf : List UInt8) (es : Nat) (t : Token) (text : List UInt8) (g : Gettoken) : Prop where
  ret : g.ret = t.ret
  le : g.word.eq ≤ es
  rest : rest buf es g.word.eq = text
  word : ∀ w, t = .word w → g.word.Good buf es ∧ g.word.read buf = w

theorem gettoken_s : (gettoken buf es s).s = skip buf es (gettoken buf es s).word.eq := rfl

theorem Token.ret_ne_zero (t : Token) : t.ret ≠ 0 := by
  cases t <;> simp only [Token.ret] <;> decide

theorem gettoken_first (h : IsString buf es) (hs : s ≤ es) {t : Token} (hfirst : firstToken ((rest buf es s).dropWhile isSpace) = some (t, text)) :
    Reads buf es t text (gettoken buf es s) := by
  obtain ⟨hq, hrest⟩ := skip_spec h hs
  rw [← hrest] at hfirst
  have hlt : skip buf es s < es := by
    refine Nat.lt_of_le_of_ne hq fun heq => ?_
    rw [rest_nil (Nat.le_of_eq heq.symm)] at hfirst
    cases hfirst
  have hcons := rest_cons h hlt
  have hne := h.bytes _ hlt
  rw [gettoken]
  generalize hc : buf.getD (skip buf es s) 0 = c at hcons hne ⊢
  rw [hcons, firstToken] at hfirst
  rcases symbol_cases c with ⟨t', hsym, hgreater, hret, -, hchr, -⟩ | rfl | ⟨hsym, hchr, hgreater, hword⟩
  · simp only [if_neg hne, if_pos hchr]
    rw [hsym] at hfirst
    split at hfirst
    · rename_i heq
      exact absurd (Option.some.inj heq) hgreater
    · rename_i heq
      cases heq
      cases hfirst
      refine ⟨hret.symm, hlt, rfl, fun w hw => ?_⟩
      subst hw hret
      exact absurd hchr (by simp only [Token.ret]; decide)
    · rename_i heq
      cases heq
  · have hchr : strchr (chars ['|', '(', ')', ';', '&', '<']) (chr '>') = false := by decide
    simp only [if_neg hne, hchr, Bool.false_eq_true, if_false, if_true]
    have hsym : symbol? (chr '>') = some .greater := by decide
    rw [hsym] at hfirst
    dsimp only at hfirst
    have hhead := head?_rest h hlt (by decide : chr '>' ≠ 0)
    split at hfirst
    · rename_i hsecond
      cases hfirst
      rw [if_pos (hhead.mp hsecond)]
      have hlt' : skip buf es s + 1 < es := by
        refine Nat.lt_of_le_of_ne hlt fun heq => ?_
        rw [rest_nil (Nat.le_of_eq heq.symm)] at hsecond
        cases hsecond
      refine ⟨rfl, hlt', ?_, fun w hw => by cases hw⟩
      rw [rest_cons h hlt']
      rfl
    · rename_i hsecond
      cases hfirst
      rw [if_neg (mt hhead.mpr hsecond)]
      exact ⟨rfl, hlt, rfl, fun w hw => by cases hw⟩
  · simp only [if_neg hne, hchr, Bool.false_eq_true, if_false, if_neg hgreater]
    rw [hsym] at hfirst
    cases hfirst
    have hspace := head?_dropWhile_not isSpace (rest buf es s)
    rw [← hrest, hcons] at hspace
    change isSpace c = false at hspace
    have hwordChar : isWordChar c = true := by
      rw [isWordChar, hword, ← isSpace, hspace]
      rfl
    obtain ⟨hgood, hread⟩ := scan_word h hlt (hc ▸ hwordChar)
    obtain ⟨-, hle, hbehind⟩ := scan_spec h isWordChar (Nat.add_sub_cancel' hq)
    rw [hcons, takeWhile_cons_of_pos hwordChar] at hread
    rw [hcons, dropWhile_cons_of_pos hwordChar] at hbehind
    exact ⟨rfl, hle, hbehind, fun w hw => ⟨hgood, hread.trans (Token.word.inj hw)⟩⟩

section

variable (h : IsString buf es) (hs : s ≤ es) {t : Token} {ts : List Token} (htoks : toks buf es s = t :: ts)
include h hs htoks

theorem gettoken_cons :
    (gettoken buf es s).ret = t.ret ∧ (gettoken buf es s).s ≤ es ∧ toks buf es (gettoken buf es s).s = ts ∧
      ∀ w, t = .word w → (gettoken buf es s).word.Good buf es ∧ (gettoken buf es s).word.read buf = w := by
  rw [toks, tokens_eq] at htoks
  split at htoks
  · cases htoks
  · rename_i t' text hfirst
    cases htoks
    have hreads := gettoken_first h hs hfirst
    refine ⟨hreads.ret, (skip_spec h hreads.le).1, ?_, hreads.word⟩
    rw [gettoken_s, toks_skip h hreads.le, toks, hreads.rest]

theorem gettoken_skip :
    (gettoken buf es (skip buf es s)).ret = t.ret ∧ (gettoken buf es (skip buf es s)).s ≤ es ∧
      toks buf es (gettoken buf es (skip buf es s)).s = ts ∧
      ∀ w, t = .word w → (gettoken buf es (skip buf es s)).word.Good buf es ∧
        (gettoken buf es (skip buf es s)).word.read buf = w :=
  gettoken_cons h (skip_spec h hs).1 ((toks_skip h hs).trans htoks)

end

theorem firstToken_eq_none (h : firstToken text = none) : text = [] := by
  cases text with
  | nil => rfl
  | cons c cs =>
    rw [firstToken] at h
    split at h
    · split at h <;> cases h
    · cases h
    · cases h

theorem skip_of_toks_nil (h : IsString buf es) (hs : s ≤ es) (htoks : toks buf es s = []) : skip buf es s = es := by
  obtain ⟨hle, hrest⟩ := skip_spec h hs
  rw [toks, tokens_eq] at htoks
  split at htoks
  · rename_i hnone
    rw [← hrest] at hnone
    rcases Nat.lt_or_eq_of_le hle with hlt | heq
    · exact nomatch (rest_cons h hlt).symm.trans (firstToken_eq_none hnone)
    · exact heq
  · cases htoks

theorem toks_es : toks buf es es = [] := by
  rw [toks, rest_nil (Nat.le_refl es), tokens_eq]
  rfl

theorem gettoken_nil (h : IsString buf es) (hs : s ≤ es) (htoks : toks buf es s = []) :
    (gettoken buf es s).ret = 0 ∧ (gettoken buf es s).s = es := by
  have hskip : skip buf es es = es := by rw [skip, Nat.sub_self, scan]
  simp only [gettoken, skip_of_toks_nil h hs htoks, h.nul, if_true, hskip, and_self]

def startsWith (set : List Char) : List Token → Bool
  | [] => false
  | t :: _ => t.first.any (strchr (chars set))

theorem firstToken_first {t : Token} (h : firstToken (c :: cs) = some (t, text)) :
    t.first = if strchr symbols c then some c else none := by
  rw [firstToken] at h
  rcases symbol_cases c with ⟨t', hsym, hgreater, -, hfirst, -, hchr⟩ | rfl | ⟨hsym, -, -, hword⟩
  · rw [hsym] at h
    rw [if_pos hchr]
    split at h
    · rename_i heq
      exact absurd (Option.some.inj heq) hgreater
    · rename_i heq
      cases heq
      cases h
      exact hfirst
    · rename_i heq
      cases heq
  · rw [(by decide : symbol? (chr '>') = some .greater)] at h
    dsimp only at h
    split at h
    · cases h
      decide
    · cases h
      decide
  · rw [hsym] at h
    cases h
    rw [hword]
    rfl

theorem peek_spec (h : IsString buf es) (hs : s ≤ es) {set : List Char}
    (hset : (chars set).all (strchr symbols) = true) :
    peek buf es s set = (startsWith set (toks buf es s), skip buf es s) := by
  obtain ⟨hle, hrest⟩ := skip_spec h hs
  rw [peek, Prod.mk.injEq]
  refine ⟨?_, rfl⟩
  rw [toks, tokens_eq, ← hrest]
  rcases Nat.lt_or_eq_of_le hle with hlt | heq
  · rw [rest_cons h hlt]
    have hne := h.bytes _ hlt
    generalize buf.getD (skip buf es s) 0 = c at hne ⊢
    split
    · rename_i hnone
      exact nomatch firstToken_eq_none hnone
    · rename_i t text hfirst
      rw [startsWith, firstToken_first hfirst]
      split
      · rename_i hchr
        simp [hne]
      · rename_i hchr
        have hnot : strchr (chars set) c = false := by
          rw [← Bool.not_eq_true]
          intro hmem
          exact hchr (all_eq_true.mp hset c (contains_iff_mem.mp hmem))
        simp [hnot]
  · rw [heq, h.nul, rest_nil (Nat.le_refl es)]
    rfl

end RainOS.Sh
