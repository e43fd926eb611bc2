import Mathlib.Computability.Language

/-!
# The matcher of grep

`match`, `matchhere` and `matchstar` of grep.c. A string is the list of its bytes before the NUL. A pattern is read as a
list of pieces, which denotes a language, and the matcher decides whether the text has a part in that language.
-/

namespace RainOS.Grep

open List Bool

def caret : UInt8 := 0x5e

def dot : UInt8 := 0x2e

def star : UInt8 := 0x2a

def dollar : UInt8 := 0x24

/-- The loop of `matchstar`; `here` is `matchhere` of the pattern behind the star. -/
def matchstar (here : List UInt8 → Bool) (c : UInt8) : List UInt8 → Bool
  | [] => here []
  | x :: text => here (x :: text) || ((x = c || c = dot) && matchstar here c text)

/-- The last branch of `matchhere`: one character, and `next` for the pattern behind it. -/
def matchone (next : List UInt8 → Bool) (c : UInt8) : List UInt8 → Bool
  | [] => false
  | x :: text => (c = dot || c = x) && next text

def matchhere : List UInt8 → List UInt8 → Bool
  | [], _ => true
  | [c], text => if c = dollar then text = [] else matchone (matchhere []) c text
  | c :: d :: re, text =>
    if d = star then matchstar (matchhere re) c text else matchone (matchhere (d :: re)) c text

/-- The loop of `match`, which must look at the empty string too. -/
def matchfrom (re : List UInt8) : List UInt8 → Bool
  | [] => matchhere re []
  | x :: text => matchhere re (x :: text) || matchfrom re text

def matchRe (re text : List UInt8) : Bool :=
  if re.head? = some caret then matchhere re.tail text else matchfrom re text

inductive Piece
  | one (c : UInt8)
  | many (c : UInt8)

/-- The pieces of a pattern without its anchor, and whether the text has to end there. -/
def pieces : List UInt8 → List Piece × Bool
  | [] => ([], false)
  | [c] => if c = dollar then ([], true) else ([.one c], false)
  | c :: d :: re =>
    if d = star then (.many c :: (pieces re).1, (pieces re).2) else (.one c :: (pieces (d :: re)).1, (pieces (d :: re)).2)

def Stands (c x : UInt8) : Prop := c = dot ∨ c = x

def Piece.language : Piece → Language UInt8
  | .one c => {w | ∃ x, Stands c x ∧ w = [x]}
  | .many c => {w | ∀ x ∈ w, Stands c x}

def language (ps : List Piece) : Language UInt8 := (ps.map Piece.language).prod

/-- A prefix of the text is in the language of the pattern, and is the whole text if it has to end there. -/
def Begins (re text : List UInt8) : Prop :=
  ∃ u v, text = u ++ v ∧ u ∈ language (pieces re).1 ∧ ((pieces re).2 = true → v = [])

theorem begins_nil (text : List UInt8) : Begins [] text :=
  ⟨[], text, rfl, Language.nil_mem_one, nofun⟩

theorem begins_dollar (text : List UInt8) : Begins [dollar] text ↔ text = [] := by
  constructor
  · rintro ⟨u, v, rfl, hu, hv⟩
    have hu : u = [] := (Language.mem_one u).mp hu
    rw [hu, hv rfl]
    rfl
  · rintro rfl
    exact ⟨[], [], rfl, Language.nil_mem_one, fun _ => rfl⟩

theorem begins_cons {p : Piece} {re re' text : List UInt8} (h : pieces re = (p :: (pieces re').1, (pieces re').2)) :
    Begins re text ↔ ∃ u v, text = u ++ v ∧ u ∈ p.language ∧ Begins re' v := by
  rw [Begins, h]
  constructor
  · rintro ⟨w, v, rfl, hw, hv⟩
    obtain ⟨a, ha, b, hb, rfl⟩ := Language.mem_mul.mp hw
    exact ⟨a, b ++ v, append_assoc .., ha, b, v, rfl, hb, hv⟩
  · rintro ⟨a, w, rfl, ha, b, v, rfl, hb, hv⟩
    exact ⟨a ++ b, v, (append_assoc ..).symm, Language.mem_mul.mpr ⟨a, ha, b, hb, rfl⟩, hv⟩

theorem matchone_iff {next : List UInt8 → Bool} {P : List UInt8 → Prop} (h : ∀ text, next text = true ↔ P text) (c : UInt8)
    (text : List UInt8) : matchone next c text = true ↔ ∃ u v, text = u ++ v ∧ u ∈ (Piece.one c).language ∧ P v := by
  cases text with
  | nil =>
    apply iff_of_false Bool.false_ne_true
    rintro ⟨u, v, huv, ⟨x, -, rfl⟩, -⟩
    cases huv
  | cons x text =>
    simp only [matchone, and_eq_true, or_eq_true, decide_eq_true_eq, h]
    constructor
    · rintro ⟨hx, htext⟩
      exact ⟨[x], text, rfl, ⟨x, hx, rfl⟩, htext⟩
    · rintro ⟨u, v, huv, ⟨y, hy, rfl⟩, hv⟩
      cases huv
      exact ⟨hy, hv⟩

theorem matchstar_iff {here : List UInt8 → Bool} {P : List UInt8 → Prop} (h : ∀ text, here text = true ↔ P text) (c : UInt8)
    (text : List UInt8) : matchstar here c text = true ↔ ∃ u v, text = u ++ v ∧ u ∈ (Piece.many c).language ∧ P v := by
  induction text with
  | nil =>
    rw [matchstar, h]
    constructor
    · exact fun hP => ⟨[], [], rfl, nofun, hP⟩
    · rintro ⟨u, v, huv, -, hv⟩
      rwa [(append_eq_nil_iff.mp huv.symm).2] at hv
  | cons x text ih =>
    simp only [matchstar, or_eq_true, and_eq_true, decide_eq_true_eq, h, ih]
    constructor
    · rintro (hP | ⟨hx, u, v, rfl, hu, hv⟩)
      · exact ⟨[], x :: text, rfl, nofun, hP⟩
      · have hstands : Stands c x := hx.symm.imp_right Eq.symm
        exact ⟨x :: u, v, rfl, forall_mem_cons.mpr ⟨hstands, hu⟩, hv⟩
    · rintro ⟨u, v, huv, hu, hv⟩
      cases u with
      | nil => exact .inl (huv ▸ hv)
      | cons y u =>
        cases huv
        obtain ⟨hy, hu⟩ := forall_mem_cons.mp hu
        exact .inr ⟨hy.symm.imp_left Eq.symm, u, v, rfl, hu, hv⟩

theorem matchhere_iff (re text : List UInt8) : matchhere re text = true ↔ Begins re text := by
  induction re using pieces.induct generalizing text with
  | case1 => exact iff_of_true rfl (begins_nil text)
  | case2 => rw [matchhere, if_pos rfl, begins_dollar, decide_eq_true_eq]
  | case3 c hc =>
    have hpieces : pieces [c] = (.one c :: (pieces []).1, (pieces []).2) := by simp [pieces, hc]
    rw [matchhere, if_neg hc, begins_cons hpieces]
    exact matchone_iff (fun v => iff_of_true rfl (begins_nil v)) c text
  | case4 c re ih =>
    have hpieces : pieces (c :: star :: re) = (.many c :: (pieces re).1, (pieces re).2) := by simp [pieces]
    rw [matchhere, if_pos rfl, begins_cons hpieces]
    exact matchstar_iff ih c text
  | case5 c d re hd ih =>
    have hpieces : pieces (c :: d :: re) = (.one c :: (pieces (d :: re)).1, (pieces (d :: re)).2) := by simp [pieces, hd]
    rw [matchhere, if_neg hd, begins_cons hpieces]
    exact matchone_iff ih c text

theorem matchfrom_iff (re text : List UInt8) : matchfrom re text = true ↔ ∃ s, s <:+ text ∧ Begins re s := by
  induction text with
  | nil => simp [matchfrom, matchhere_iff]
  | cons x text ih =>
    simp only [matchfrom, or_eq_true, matchhere_iff, ih, suffix_cons_iff]
    constructor
    · rintro (h | ⟨s, hs, h⟩)
      · exact ⟨_, .inl rfl, h⟩
      · exact ⟨s, .inr hs, h⟩
    · rintro ⟨s, rfl | hs, h⟩
      · exact .inl h
      · exact .inr ⟨s, hs, h⟩

/-- `match` says whether a suffix of the text, the text itself if the pattern is anchored, begins with the pattern. -/
theorem matchRe_iff (re text : List UInt8) : matchRe re text = true ↔
    if re.head? = some caret then Begins re.tail text else ∃ s, s <:+ text ∧ Begins re s := by
  rw [matchRe]
  split
  · exact matchhere_iff re.tail text
  · exact matchfrom_iff re text

end RainOS.Grep
