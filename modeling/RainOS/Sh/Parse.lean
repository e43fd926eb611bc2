import RainOS.Sh.Loops

/-!
# The parser accepts its grammar

With enough fuel each of the four functions of the descent either returns a command that the tokens it took derive, or
panics; and it takes every derivation that is followed by a token the parser stops at. Both bounds on the fuel are four
calls for each token that is left.
-/

namespace RainOS.Sh

open List

def parse (buf : List UInt8) (es : Nat) : Nonterminal → Nat → Nat → Except Stop (Cmd Word × Nat)
  | .line => parseline buf es
  | .pipe => parsepipe buf es
  | .exec => parseexec buf es
  | .block => parseblock buf es

/-- The depth of the descent from the nonterminal to the next token. -/
def Nonterminal.depth : Nonterminal → Nat
  | .line => 4
  | .pipe => 3
  | .exec => 2
  | .block => 1

section Parse

variable {buf : List UInt8} {es s s₁ s₂ n : Nat} {cmd cmd' : Cmd Word}

/-! ### One call -/

theorem parseline_eq (h : IsString buf es) (hpipe : parsepipe buf es n s = .ok (cmd, s₁))
    (hback : parsebacks buf es n cmd s₁ = .ok (cmd', s₂)) (hs₂ : s₂ ≤ es) :
    parseline buf es (n + 1) s =
      if startsWith [';'] (toks buf es s₂) = true then
        parseline buf es n (gettoken buf es (skip buf es s₂)).s >>= fun r => .ok (.list cmd' r.1, r.2)
      else .ok (cmd', skip buf es s₂) := by
  rw [parseline, hpipe]
  dsimp only [bind, Except.bind]
  rw [hback]
  dsimp only
  rw [peek_spec h hs₂ rfl]
  rfl

theorem parsepipe_eq (h : IsString buf es) (hexec : parseexec buf es n s = .ok (cmd, s₁)) (hs₁ : s₁ ≤ es) :
    parsepipe buf es (n + 1) s =
      if startsWith ['|'] (toks buf es s₁) = true then
        parsepipe buf es n (gettoken buf es (skip buf es s₁)).s >>= fun r => .ok (.pipe cmd r.1, r.2)
      else .ok (cmd, skip buf es s₁) := by
  rw [parsepipe, hexec]
  dsimp only [bind, Except.bind]
  rw [peek_spec h hs₁ rfl]
  rfl

theorem parseexec_eq (h : IsString buf es) (hs : s ≤ es) :
    parseexec buf es (n + 1) s =
      if startsWith ['('] (toks buf es s) = true then parseblock buf es n (skip buf es s)
      else parseredirs buf es n (.exec []) (skip buf es s) >>= fun r => parseargs buf es n 0 r.1 r.2 := by
  rw [parseexec, peek_spec h hs rfl]

theorem parseblock_eq (h : IsString buf es) (hs : s ≤ es) (hopen : startsWith ['('] (toks buf es s) = true)
    (hline : parseline buf es n (gettoken buf es (skip buf es s)).s = .ok (cmd, s₁)) (hs₁ : s₁ ≤ es) :
    parseblock buf es (n + 1) s =
      if startsWith [')'] (toks buf es s₁) = true then
        parseredirs buf es n cmd (gettoken buf es (skip buf es s₁)).s
      else .error (.panic "syntax - missing )") := by
  rw [parseblock, peek_spec h hs rfl, hopen]
  dsimp only [bind, Except.bind]
  rw [hline]
  dsimp only
  rw [peek_spec h hs₁ rfl]
  cases startsWith [')'] (toks buf es s₁) <;> rfl

theorem exec_tree {r r' : Cmd Word × Nat} {rs : List Redir} {args : List Arg} (hr : Redirects buf es (.exec []) rs r)
    (hr' : Collects buf es 0 r.1 args r') :
    r'.1.map (Word.read buf) = Redir.wrap (.exec (Arg.words args)) (rs ++ Arg.allRedirs args) :=
  hr'.tree [] rs hr.tree

/-! ### What is returned derives -/

structure Accepts (buf : List UInt8) (es s : Nat) (X : Nonterminal) (ts : List Token) (cmd : Cmd Word) (s' : Nat) :
    Prop where
  le : s' ≤ es
  toks : toks buf es s = ts ++ toks buf es s'
  derives : Derives X ts (cmd.map (Word.read buf))
  words : ∀ w ∈ cmd.words, w.Good buf es

def Answers (buf : List UInt8) (es s : Nat) (X : Nonterminal) (r : Except Stop (Cmd Word × Nat)) : Prop :=
  (∃ cmd s' ts, r = .ok (cmd, s') ∧ Accepts buf es s X ts cmd s') ∨ ∃ msg, r = .error (.panic msg)

section

variable (h : IsString buf es) (hs : s ≤ es)
include h hs

theorem parseexec_answers (hn : 4 * (toks buf es s).length + 1 ≤ n)
    (hblock : ∀ s, s ≤ es → 4 * (toks buf es s).length + 1 ≤ n → Answers buf es s .block (parseblock buf es n s)) :
    Answers buf es s .exec (parseexec buf es (n + 1) s) := by
  obtain ⟨hle, -⟩ := skip_spec h hs
  have htoks := toks_skip h hs
  rw [parseexec_eq h hs]
  split
  · rcases hblock _ hle (htoks ▸ hn) with ⟨cmd, s', ts, hr, hacc⟩ | ⟨msg, hmsg⟩
    · exact .inl ⟨cmd, s', ts, hr, ⟨hacc.le, htoks ▸ hacc.toks, .group hacc.derives, hacc.words⟩⟩
    · exact .inr ⟨msg, hmsg⟩
  · have hlen : (toks buf es (skip buf es s)).length < n := by
      rw [htoks]
      omega
    rcases parseredirs_spec h hle hlen with ⟨r, rs, hr, hredirs, hsplit⟩ | hmissing
    · have hlen' : (toks buf es r.2).length < n := by
        rw [hsplit, length_append] at hlen
        omega
      rw [hr]
      rcases parseargs_spec h hredirs.le hlen' (by decide : 0 < maxargs) with ⟨r', args, hr', hargs, hsplit'⟩ | ⟨msg, hmsg⟩
      · refine .inl ⟨r'.1, r'.2, Redir.tokens rs ++ Arg.tokens args, hr', ⟨hargs.le, ?_, ?_, fun w hw => ?_⟩⟩
        · rw [← htoks, hsplit, hsplit', append_assoc]
        · rw [exec_tree hredirs hargs]
          have hcount := hargs.count
          exact .exec rs args (by omega)
        · rcases hargs.words w hw with hw | hw
          · exact (hredirs.words w hw).resolve_left (by rintro ⟨⟩)
          · exact hw
      · exact .inr ⟨msg, hmsg⟩
    · rw [hmissing]
      exact .inr ⟨_, rfl⟩

theorem parseblock_answers (hn : 4 * (toks buf es s).length ≤ n)
    (hline : ∀ s, s ≤ es → 4 * (toks buf es s).length + 4 ≤ n → Answers buf es s .line (parseline buf es n s)) :
    Answers buf es s .block (parseblock buf es (n + 1) s) := by
  by_cases hopen : startsWith ['('] (toks buf es s) = true
  · obtain ⟨us, htoks⟩ := startsWith_left.mp hopen
    obtain ⟨-, hle, hrest, -⟩ := gettoken_skip h hs htoks
    rw [htoks, length_cons, ← hrest] at hn
    rcases hline _ hle (by omega) with ⟨cmd, s₁, ts, hr, hacc⟩ | ⟨msg, hmsg⟩
    · rw [parseblock_eq h hs hopen hr hacc.le]
      split
      · rename_i hclose
        obtain ⟨vs, htoks₁⟩ := startsWith_right.mp hclose
        obtain ⟨-, hle₁, hrest₁, -⟩ := gettoken_skip h hacc.le htoks₁
        have hlen : (toks buf es (gettoken buf es (skip buf es s₁)).s).length < n := by
          rw [hacc.toks, length_append, htoks₁, length_cons, ← hrest₁] at hn
          omega
        rcases parseredirs_spec h hle₁ hlen with ⟨r, rs, hr', hredirs, hsplit⟩ | hmissing
        · refine .inl ⟨r.1, r.2, .left :: ts ++ .right :: Redir.tokens rs, hr', ⟨hredirs.le, ?_, ?_, fun w hw => ?_⟩⟩
          · rw [htoks, ← hrest, hacc.toks, htoks₁, ← hrest₁, hsplit]
            simp only [cons_append, append_assoc]
          · rw [hredirs.tree]
            exact .block rs hacc.derives
          · exact (hredirs.words w hw).elim (hacc.words w) id
        · exact .inr ⟨_, hmissing⟩
      · exact .inr ⟨_, rfl⟩
    · refine .inr ⟨msg, ?_⟩
      rw [parseblock, peek_spec h hs rfl, hopen]
      dsimp only [bind, Except.bind]
      rw [hmsg]
      rfl
  · refine .inr ⟨"parseblock", ?_⟩
    rw [parseblock, peek_spec h hs rfl, Bool.eq_false_of_not_eq_true hopen]
    rfl

theorem parsepipe_answers (hn : 4 * (toks buf es s).length + 2 ≤ n)
    (hexec : ∀ s, s ≤ es → 4 * (toks buf es s).length + 2 ≤ n → Answers buf es s .exec (parseexec buf es n s))
    (hpipe : ∀ s, s ≤ es → 4 * (toks buf es s).length + 3 ≤ n → Answers buf es s .pipe (parsepipe buf es n s)) :
    Answers buf es s .pipe (parsepipe buf es (n + 1) s) := by
  rcases hexec s hs hn with ⟨cmd, s₁, ts, hr, hacc⟩ | ⟨msg, hmsg⟩
  · rw [parsepipe_eq h hr hacc.le]
    split
    · rename_i hmore
      obtain ⟨us, htoks⟩ := startsWith_pipe.mp hmore
      obtain ⟨-, hle, hrest, -⟩ := gettoken_skip h hacc.le htoks
      rw [hacc.toks, length_append, htoks, length_cons, ← hrest] at hn
      rcases hpipe _ hle (by omega) with ⟨rest, s', vs, hr', hacc'⟩ | ⟨msg, hmsg⟩
      · rw [hr']
        refine .inl ⟨_, _, _, rfl, ⟨hacc'.le, ?_, .pipe hacc.derives hacc'.derives, fun w hw => ?_⟩⟩
        · rw [hacc.toks, htoks, ← hrest, hacc'.toks]
          simp only [cons_append, append_assoc]
        · exact (mem_append.mp hw).elim (hacc.words w) (hacc'.words w)
      · rw [hmsg]
        exact .inr ⟨msg, rfl⟩
    · refine .inl ⟨_, _, ts, rfl, ⟨(skip_spec h hacc.le).1, ?_, .single hacc.derives, hacc.words⟩⟩
      rw [toks_skip h hacc.le]
      exact hacc.toks
  · rw [parsepipe, hmsg]
    exact .inr ⟨msg, rfl⟩

theorem parseline_answers (hn : 4 * (toks buf es s).length + 3 ≤ n)
    (hpipe : ∀ s, s ≤ es → 4 * (toks buf es s).length + 3 ≤ n → Answers buf es s .pipe (parsepipe buf es n s))
    (hline : ∀ s, s ≤ es → 4 * (toks buf es s).length + 4 ≤ n → Answers buf es s .line (parseline buf es n s)) :
    Answers buf es s .line (parseline buf es (n + 1) s) := by
  rcases hpipe s hs hn with ⟨cmd, s₁, ts, hr, hacc⟩ | ⟨msg, hmsg⟩
  · rw [hacc.toks, length_append] at hn
    have hlen : (toks buf es s₁).length < n := by omega
    obtain ⟨k, s₂, hback, hs₂, hsplit, -⟩ := parsebacks_spec h cmd hacc.le hlen
    have hwords : ∀ w ∈ (Cmd.back^[k] cmd).words, w.Good buf es := by
      rw [Cmd.words_back]
      exact hacc.words
    rw [parseline_eq h hr hback hs₂]
    split
    · rename_i hmore
      obtain ⟨us, htoks⟩ := startsWith_semi.mp hmore
      obtain ⟨-, hle, hrest, -⟩ := gettoken_skip h hs₂ htoks
      rw [hsplit, length_append, htoks, length_cons, ← hrest] at hn
      rcases hline _ hle (by omega) with ⟨rest, s', vs, hr', hacc'⟩ | ⟨msg, hmsg⟩
      · rw [hr']
        refine .inl ⟨_, _, ts ++ replicate k .amp ++ .semi :: vs, rfl, ⟨hacc'.le, ?_, ?_, fun w hw => ?_⟩⟩
        · rw [hacc.toks, hsplit, htoks, ← hrest, hacc'.toks]
          simp only [cons_append, append_assoc]
        · rw [Cmd.map, Cmd.map_back]
          exact .list k hacc.derives hacc'.derives
        · exact (mem_append.mp hw).elim (hwords w) (hacc'.words w)
      · rw [hmsg]
        exact .inr ⟨msg, rfl⟩
    · refine .inl ⟨_, _, ts ++ replicate k .amp, rfl, ⟨(skip_spec h hs₂).1, ?_, ?_, hwords⟩⟩
      · rw [toks_skip h hs₂, hacc.toks, hsplit, append_assoc]
      · rw [Cmd.map_back]
        exact .line k hacc.derives
  · rw [parseline, hmsg]
    exact .inr ⟨msg, rfl⟩

end

theorem parse_answers (h : IsString buf es) {X : Nonterminal} (hs : s ≤ es)
    (hn : 4 * (toks buf es s).length + X.depth ≤ n) : Answers buf es s X (parse buf es X n s) := by
  induction n generalizing X s with
  | zero => cases X <;> exact absurd hn (Nat.not_succ_le_zero _)
  | succ n ih =>
    cases X with
    | line => exact parseline_answers h hs (Nat.le_of_succ_le_succ hn) (fun _ => ih (X := .pipe)) fun _ => ih (X := .line)
    | pipe => exact parsepipe_answers h hs (Nat.le_of_succ_le_succ hn) (fun _ => ih (X := .exec)) fun _ => ih (X := .pipe)
    | exec => exact parseexec_answers h hs (Nat.le_of_succ_le_succ hn) fun _ => ih (X := .block)
    | block => exact parseblock_answers h hs (Nat.le_of_succ_le_succ hn) fun _ => ih (X := .line)

/-! ### What derives is returned -/

def Nonterminal.follow : Nonterminal → List Char
  | .line => [')']
  | .pipe => [')', '&', ';']
  | .exec | .block => ['|', ')', '&', ';']

/-- The call takes the tokens, makes the command of them and stops before the others. -/
def Returns (buf : List UInt8) (es : Nat) (tree : Cmd (List UInt8)) (us : List Token) (r : Except Stop (Cmd Word × Nat)) :
    Prop :=
  ∃ cmd s', r = .ok (cmd, s') ∧ s' ≤ es ∧ cmd.map (Word.read buf) = tree ∧ toks buf es s' = us

variable {left right tree : Cmd (List UInt8)} {us vs ts : List Token} {k : Nat} {rs : List Redir}

section

variable (h : IsString buf es)
include h

theorem parseline_single (hpipe : Returns buf es tree (.replicate k .amp ++ us) (parsepipe buf es n s))
    (hn : (replicate k Token.amp ++ us).length < n) (hus : Follows [')'] us) :
    Returns buf es (Cmd.back^[k] tree) us (parseline buf es (n + 1) s) := by
  obtain ⟨cmd, s₁, hr, hs₁, rfl, htoks₁⟩ := hpipe
  obtain ⟨s₂, hback, hs₂, rfl⟩ := parsebacks_complete h cmd hs₁ (htoks₁ ▸ hn) htoks₁ (hus.not_startsWith rfl)
  refine ⟨_, _, ?_, (skip_spec h hs₂).1, Cmd.map_back .., toks_skip h hs₂⟩
  rw [parseline_eq h hr hback hs₂, hus.not_startsWith rfl]
  rfl

theorem parseline_list (hpipe : Returns buf es left (.replicate k .amp ++ .semi :: us) (parsepipe buf es n s))
    (hn : (replicate k Token.amp ++ .semi :: us).length < n)
    (hline : ∀ s, s ≤ es → toks buf es s = us → Returns buf es right vs (parseline buf es n s)) :
    Returns buf es (.list (Cmd.back^[k] left) right) vs (parseline buf es (n + 1) s) := by
  obtain ⟨cmd, s₁, hr, hs₁, rfl, htoks₁⟩ := hpipe
  obtain ⟨s₂, hback, hs₂, htoks₂⟩ := parsebacks_complete h cmd hs₁ (htoks₁ ▸ hn) htoks₁ rfl
  obtain ⟨-, hle, hrest, -⟩ := gettoken_skip h hs₂ htoks₂
  obtain ⟨cmd', s', hr', hs', rfl, htoks'⟩ := hline _ hle hrest
  refine ⟨.list (Cmd.back^[k] cmd) cmd', s', ?_, hs', ?_, htoks'⟩
  · rw [parseline_eq h hr hback hs₂, htoks₂, if_pos (by rfl), hr']
    rfl
  · rw [Cmd.map, Cmd.map_back]

theorem parsepipe_single (hexec : Returns buf es tree us (parseexec buf es n s))
    (hus : Follows [')', '&', ';'] us) : Returns buf es tree us (parsepipe buf es (n + 1) s) := by
  obtain ⟨cmd, s₁, hr, hs₁, rfl, rfl⟩ := hexec
  refine ⟨_, _, ?_, (skip_spec h hs₁).1, rfl, toks_skip h hs₁⟩
  rw [parsepipe_eq h hr hs₁, hus.not_startsWith rfl]
  rfl

theorem parsepipe_pipe (hexec : Returns buf es left (.pipe :: us) (parseexec buf es n s))
    (hpipe : ∀ s, s ≤ es → toks buf es s = us → Returns buf es right vs (parsepipe buf es n s)) :
    Returns buf es (.pipe left right) vs (parsepipe buf es (n + 1) s) := by
  obtain ⟨cmd, s₁, hr, hs₁, rfl, htoks₁⟩ := hexec
  obtain ⟨-, hle, hrest, -⟩ := gettoken_skip h hs₁ htoks₁
  obtain ⟨cmd', s', hr', hs', rfl, htoks'⟩ := hpipe _ hle hrest
  refine ⟨.pipe cmd cmd', s', ?_, hs', rfl, htoks'⟩
  rw [parsepipe_eq h hr hs₁, htoks₁, if_pos (by rfl), hr']
  rfl

theorem parseexec_exec (hs : s ≤ es) (hn : (toks buf es s).length < n) {args : List Arg} (hcount : args.length < maxargs) (htoks : toks buf es s = Redir.tokens rs ++ (Arg.tokens args ++ us))
    (hus : Follows ['|', ')', '&', ';'] us) :
    Returns buf es (Redir.wrap (.exec (Arg.words args)) (rs ++ Arg.allRedirs args)) us (parseexec buf es (n + 1) s) := by
  obtain ⟨hle, -⟩ := skip_spec h hs
  have hskip := toks_skip h hs
  have hargs : startsWith ['<', '>'] (Arg.tokens args ++ us) = false := by
    cases args with
    | nil => exact hus.not_startsWith rfl
    | cons a args => rfl
  have hblock : startsWith ['('] (toks buf es s) = false := by
    rw [htoks]
    cases rs with
    | nil =>
      cases args with
      | nil => exact hus.not_startsWith rfl
      | cons a args => rfl
    | cons r rs => cases hd : r.direction <;> simp [Redir.tokens, hd, Direction.token, startsWith, Token.first] <;> decide
  obtain ⟨r, hr, hredirs, hend⟩ := parseredirs_complete h hle (hskip ▸ hn) (hskip.trans htoks) hargs
  have hlen : (toks buf es r.2).length < n := by
    rw [htoks, length_append, ← hend] at hn
    omega
  obtain ⟨r', hr', hcollects, hend'⟩ := parseargs_complete h hredirs.le hlen (by omega : 0 + args.length < maxargs) hend hus
  refine ⟨r'.1, r'.2, ?_, hcollects.le, exec_tree hredirs hcollects, hend'⟩
  rw [parseexec_eq h hs, hblock, if_neg (by rintro ⟨⟩), hr]
  exact hr'

theorem parseblock_block (hs : s ≤ es) (hn : (Redir.tokens rs ++ us).length < n) (htoks : toks buf es s = .left :: ts)
    (hline : ∀ s, s ≤ es → toks buf es s = ts → Returns buf es tree (.right :: (Redir.tokens rs ++ us)) (parseline buf es n s))
    (hus : Follows ['|', ')', '&', ';'] us) :
    Returns buf es (Redir.wrap tree rs) us (parseblock buf es (n + 1) s) := by
  obtain ⟨-, hle, hrest, -⟩ := gettoken_skip h hs htoks
  obtain ⟨cmd, s₁, hr, hs₁, rfl, htoks₁⟩ := hline _ hle hrest
  obtain ⟨-, hle₁, hrest₁, -⟩ := gettoken_skip h hs₁ htoks₁
  have hlen : (toks buf es (gettoken buf es (skip buf es s₁)).s).length < n := by
    rw [hrest₁]
    exact hn
  obtain ⟨r, hr', hredirs, hend⟩ := parseredirs_complete h hle₁ hlen hrest₁ (hus.not_startsWith rfl)
  refine ⟨r.1, r.2, ?_, hredirs.le, hredirs.tree, hend⟩
  rw [parseblock_eq h hs (htoks ▸ rfl) hr hs₁, htoks₁, if_pos (by rfl)]
  exact hr'

theorem parse_complete {X : Nonterminal} (hder : Derives X ts tree) (hs : s ≤ es) (hn : 4 * (toks buf es s).length + X.depth ≤ n)
    (htoks : toks buf es s = ts ++ us) (hus : Follows X.follow us) : Returns buf es tree us (parse buf es X n s) := by
  induction hder generalizing s n us with
  | line k hpipe ih =>
    cases n with
    | zero => exact absurd hn (Nat.not_succ_le_zero _)
    | succ n =>
      rw [append_assoc] at htoks
      have hpipe' := ih (n := n) hs (Nat.le_of_succ_le_succ hn) htoks ?_
      · refine parseline_single h hpipe' ?_ hus
        rw [htoks, length_append] at hn
        change _ + 4 ≤ _ at hn
        omega
      · cases k with
        | zero => exact hus.mono rfl
        | succ k => exact .inr rfl
  | list k hpipe hline ih ih' =>
    cases n with
    | zero => exact absurd hn (Nat.not_succ_le_zero _)
    | succ n =>
      rw [append_assoc, append_assoc, cons_append] at htoks
      have hpipe' := ih (n := n) hs (Nat.le_of_succ_le_succ hn) htoks ?_
      · change _ + 4 ≤ _ at hn
        rw [htoks, length_append] at hn
        refine parseline_list h hpipe' (by omega) fun s₁ hs₁ htoks₁ => ?_
        refine ih' hs₁ ?_ htoks₁ hus
        change _ + 4 ≤ _
        rw [length_append, length_cons, ← htoks₁] at hn
        omega
      · cases k with
        | zero => exact .inr rfl
        | succ k => exact .inr rfl
  | single hexec ih =>
    cases n with
    | zero => exact absurd hn (Nat.not_succ_le_zero _)
    | succ n =>
      exact parsepipe_single h (ih (n := n) hs (Nat.le_of_succ_le_succ hn) htoks (hus.mono rfl)) hus
  | pipe hexec hpipe ih ih' =>
    cases n with
    | zero => exact absurd hn (Nat.not_succ_le_zero _)
    | succ n =>
      rw [append_assoc, cons_append] at htoks
      have hexec' := ih (n := n) hs (Nat.le_of_succ_le_succ hn) htoks (.inr rfl)
      refine parsepipe_pipe h hexec' fun s₁ hs₁ htoks₁ => ih' hs₁ ?_ htoks₁ hus
      change _ + 3 ≤ _ at hn
      change _ + 3 ≤ _
      rw [htoks, length_append, length_cons, ← htoks₁] at hn
      omega
  | group hblock ih =>
    cases n with
    | zero => exact absurd hn (Nat.not_succ_le_zero _)
    | succ n =>
      have hskip := toks_skip h hs
      have hblock' := ih (n := n) (skip_spec h hs).1 (hskip ▸ Nat.le_of_succ_le_succ hn) (hskip.trans htoks) hus
      change Returns buf es _ _ (parseexec buf es (n + 1) s)
      rw [parseexec_eq h hs, if_pos (by cases hblock; rw [htoks]; rfl)]
      exact hblock'
  | exec rs args hcount =>
    cases n with
    | zero => exact absurd hn (Nat.not_succ_le_zero _)
    | succ n =>
      rw [append_assoc] at htoks
      change _ + 2 ≤ _ at hn
      exact parseexec_exec h hs (by omega) (Nat.lt_of_le_pred (by decide) hcount) htoks hus
  | block rs hline ih =>
    cases n with
    | zero => exact absurd hn (Nat.not_succ_le_zero _)
    | succ n =>
      change _ + 1 ≤ _ at hn
      rw [append_assoc, cons_append, cons_append] at htoks
      rw [htoks, length_cons, length_append, length_cons] at hn
      refine parseblock_block h hs (by omega) htoks (fun s₁ hs₁ htoks₁ => ih hs₁ ?_ htoks₁ (.inr rfl)) hus
      change _ + 4 ≤ _
      rw [htoks₁, length_append, length_cons]
      omega

end

end Parse

end RainOS.Sh
