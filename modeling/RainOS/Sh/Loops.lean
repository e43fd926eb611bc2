import RainOS.Sh.Tokens

/-!
# The loops of the parser

What `parseredirs` and the loops of `parseexec` and `parseline` do, token by token, and from that which tokens they take and
what they make of them. Each is said twice: for what the loop finds, and for tokens that are known to come first.
-/

namespace RainOS.Sh

open List

namespace Cmd

variable {W V : Type}

def map (f : W → V) : Cmd W → Cmd V
  | .exec argv => .exec (argv.map f)
  | .redir cmd file mode fd => .redir (cmd.map f) (f file) mode fd
  | .pipe left right => .pipe (left.map f) (right.map f)
  | .list left right => .list (left.map f) (right.map f)
  | .back cmd => .back (cmd.map f)

def words : Cmd W → List W
  | .exec argv => argv
  | .redir cmd file _ _ => file :: cmd.words
  | .pipe left right | .list left right => left.words ++ right.words
  | .back cmd => cmd.words

theorem map_addArg (f : W → V) (cmd : Cmd W) (w : W) : (cmd.addArg w).map f = (cmd.map f).addArg (f w) := by
  induction cmd with
  | exec argv => simp [addArg, map]
  | redir cmd file mode fd ih => rw [addArg, map, ih, map, addArg]
  | _ => rfl

theorem words_addArg {cmd : Cmd W} {w x : W} (h : x ∈ (cmd.addArg w).words) : x ∈ cmd.words ∨ x = w := by
  induction cmd with
  | exec argv => simpa [addArg, words] using h
  | redir cmd file mode fd ih =>
    rcases mem_cons.mp h with rfl | h
    · exact .inl (mem_cons_self ..)
    · exact (ih h).imp_left (mem_cons_of_mem _)
  | _ => exact .inl h

theorem map_back (f : W → V) (cmd : Cmd W) (k : Nat) : (back^[k] cmd).map f = back^[k] (cmd.map f) := by
  induction k generalizing cmd with
  | zero => rfl
  | succ k ih => exact ih (.back cmd)

theorem words_back (cmd : Cmd W) (k : Nat) : (back^[k] cmd).words = cmd.words := by
  induction k generalizing cmd with
  | zero => rfl
  | succ k ih => exact ih (.back cmd)

end Cmd

theorem Redir.addArg_wrap (cmd : Cmd (List UInt8)) (rs : List Redir) (w : List UInt8) :
    (Redir.wrap cmd rs).addArg w = Redir.wrap (cmd.addArg w) rs := by
  induction rs generalizing cmd with
  | nil => rfl
  | cons r rs ih => exact ih _

theorem Redir.wrap_append (cmd : Cmd (List UInt8)) (rs rs' : List Redir) :
    Redir.wrap cmd (rs ++ rs') = Redir.wrap (Redir.wrap cmd rs) rs' := foldl_append

/-! ### Symbols -/

theorem startsWith_one {c : Char} {t : Token} (ht : t.first = some (chr c))
    (hone : ∀ t', t'.first = some (chr c) → t' = t) {ts : List Token} :
    startsWith [c] ts = true ↔ ∃ us, ts = t :: us := by
  cases ts with
  | nil => exact ⟨nofun, nofun⟩
  | cons t' us =>
    rw [startsWith, Option.any_eq_true]
    constructor
    · rintro ⟨x, hx, hmem⟩
      rw [strchr, contains_iff_mem] at hmem
      rw [mem_singleton.mp hmem] at hx
      exact ⟨us, by rw [hone t' hx]⟩
    · rintro ⟨us', heq⟩
      cases heq
      exact ⟨_, ht, by simp [strchr, chars]⟩

section

variable {ts : List Token}

theorem startsWith_amp : startsWith ['&'] ts = true ↔ ∃ us, ts = .amp :: us :=
  startsWith_one rfl fun t ht => by cases t <;> first | rfl | exact absurd ht (by decide) | cases ht

theorem startsWith_semi : startsWith [';'] ts = true ↔ ∃ us, ts = .semi :: us :=
  startsWith_one rfl fun t ht => by cases t <;> first | rfl | exact absurd ht (by decide) | cases ht

theorem startsWith_pipe : startsWith ['|'] ts = true ↔ ∃ us, ts = .pipe :: us :=
  startsWith_one rfl fun t ht => by cases t <;> first | rfl | exact absurd ht (by decide) | cases ht

theorem startsWith_left : startsWith ['('] ts = true ↔ ∃ us, ts = .left :: us :=
  startsWith_one rfl fun t ht => by cases t <;> first | rfl | exact absurd ht (by decide) | cases ht

theorem startsWith_right : startsWith [')'] ts = true ↔ ∃ us, ts = .right :: us :=
  startsWith_one rfl fun t ht => by cases t <;> first | rfl | exact absurd ht (by decide) | cases ht

theorem startsWith_direction :
    startsWith ['<', '>'] ts = true ↔ ∃ (d : Direction) (us : List Token), ts = d.token :: us := by
  cases ts with
  | nil => exact ⟨nofun, nofun⟩
  | cons t us =>
    constructor
    · intro h
      cases t with
      | less => exact ⟨.input, us, rfl⟩
      | greater => exact ⟨.output, us, rfl⟩
      | append => exact ⟨.append, us, rfl⟩
      | _ => cases h
    · rintro ⟨d, us', heq⟩
      cases heq
      cases d <;> rfl

end

def Follows (set : List Char) (ts : List Token) : Prop := ts = [] ∨ startsWith set ts = true

theorem Follows.mono {set set' : List Char} {ts : List Token} (h : Follows set ts) (hsub : set.all set'.contains = true) :
    Follows set' ts := by
  refine h.imp_right fun hstart => ?_
  cases ts with
  | nil => cases hstart
  | cons t us =>
    obtain ⟨c, hc, hmem⟩ := (Option.any_eq_true _ _).mp hstart
    refine (Option.any_eq_true _ _).mpr ⟨c, hc, ?_⟩
    rw [strchr, contains_iff_mem] at hmem ⊢
    exact map_subset chr (fun x hx => contains_iff_mem.mp (all_eq_true.mp hsub x hx)) hmem

theorem Follows.not_startsWith {set set' : List Char} {ts : List Token} (h : Follows set ts)
    (hdisj : (chars set).any (strchr (chars set')) = false) : startsWith set' ts = false := by
  rcases h with rfl | h
  · rfl
  · cases ts with
    | nil => rfl
    | cons t us =>
      obtain ⟨c, hc, hmem⟩ := (Option.any_eq_true _ _).mp h
      rw [startsWith, hc]
      rw [any_eq_false] at hdisj
      exact Bool.eq_false_of_not_eq_true (hdisj c (contains_iff_mem.mp hmem))

/-! ### Redirections -/

section Loops

variable {buf w : List UInt8} {es s n k k' : Nat} {cmd : Cmd Word} {ts us us' : List Token} {d : Direction}
  {rs : List Redir}

theorem parseredirs_done (h : IsString buf es) (hs : s ≤ es) (hdone : startsWith ['<', '>'] (toks buf es s) = false) :
    parseredirs buf es (n + 1) cmd s = .ok (cmd, skip buf es s) := by
  rw [parseredirs, peek_spec h hs rfl, hdone]
  rfl

theorem parseredirs_step (h : IsString buf es) (hs : s ≤ es) (htoks : toks buf es s = d.token :: .word w :: ts) :
    ∃ (x : Word) (s' : Nat), parseredirs buf es (n + 1) cmd s = parseredirs buf es n (.redir cmd x d.mode d.fd) s' ∧
      s' ≤ es ∧ toks buf es s' = ts ∧ x.Good buf es ∧ x.read buf = w := by
  obtain ⟨hret, hle, hrest, -⟩ := gettoken_skip h hs htoks
  obtain ⟨hret', hle', hrest', hword⟩ := gettoken_cons h hle hrest
  change _ = chr 'a' at hret'
  obtain ⟨hgood, hread⟩ := hword w rfl
  refine ⟨_, _, ?_, hle', hrest', hgood, hread⟩
  rw [parseredirs, peek_spec h hs rfl, startsWith_direction.mpr ⟨d, _, htoks⟩]
  dsimp only
  rw [if_pos rfl, hret', hret, if_neg (fun hne => hne rfl)]
  cases d <;> rfl

theorem parseredirs_missing (h : IsString buf es) (hs : s ≤ es) (htoks : toks buf es s = d.token :: ts)
    (hword : ∀ w us, ts ≠ .word w :: us) :
    parseredirs buf es (n + 1) cmd s = .error (.panic "missing file for redirection") := by
  obtain ⟨-, hle, hrest, -⟩ := gettoken_skip h hs htoks
  have hret : (gettoken buf es (gettoken buf es (skip buf es s)).s).ret ≠ chr 'a' := by
    cases ts with
    | nil =>
      rw [(gettoken_nil h hle hrest).1]
      decide
    | cons t us =>
      rw [(gettoken_cons h hle hrest).1]
      cases t with
      | word w => exact absurd rfl (hword w us)
      | _ => decide
  rw [parseredirs, peek_spec h hs rfl, startsWith_direction.mpr ⟨d, _, htoks⟩]
  dsimp only
  rw [if_pos rfl, if_pos hret]

/-- What `parseredirs` makes of the tokens it takes. -/
structure Redirects (buf : List UInt8) (es : Nat) (cmd : Cmd Word) (rs : List Redir) (r : Cmd Word × Nat) : Prop where
  le : r.2 ≤ es
  tree : r.1.map (Word.read buf) = Redir.wrap (cmd.map (Word.read buf)) rs
  words : ∀ w ∈ r.1.words, w ∈ cmd.words ∨ w.Good buf es

theorem Redirects.cons {x : Word} {r : Cmd Word × Nat}
    (hr : Redirects buf es (.redir cmd x d.mode d.fd) rs r) (hx : x.Good buf es) :
    Redirects buf es cmd (⟨d, x.read buf⟩ :: rs) r := by
  refine ⟨hr.le, hr.tree, fun w hw => ?_⟩
  rcases hr.words w hw with hw | hw
  · rcases mem_cons.mp hw with rfl | hw
    · exact .inr hx
    · exact .inl hw
  · exact .inr hw

theorem parseredirs_spec (h : IsString buf es) (hs : s ≤ es) (hn : (toks buf es s).length < n) :
    (∃ r rs, parseredirs buf es n cmd s = .ok r ∧ Redirects buf es cmd rs r ∧
      toks buf es s = Redir.tokens rs ++ toks buf es r.2) ∨
    parseredirs buf es n cmd s = .error (.panic "missing file for redirection") := by
  induction n generalizing cmd s with
  | zero => exact absurd hn (Nat.not_lt_zero _)
  | succ n ih =>
    by_cases hmore : startsWith ['<', '>'] (toks buf es s) = true
    · obtain ⟨d, ts, htoks⟩ := startsWith_direction.mp hmore
      by_cases hword : ∃ w us, ts = .word w :: us
      · obtain ⟨w, us, rfl⟩ := hword
        obtain ⟨x, s', heq, hs', htoks', hgood, rfl⟩ := parseredirs_step h hs htoks
        have hlen : (toks buf es s').length < n := by
          rw [htoks, length_cons, length_cons] at hn
          rw [htoks']
          omega
        rw [heq]
        refine (ih hs' hlen).imp_left ?_
        rintro ⟨r, rs, hr, hredirs, hsplit⟩
        refine ⟨r, _, hr, hredirs.cons hgood, ?_⟩
        rw [htoks, ← htoks', hsplit]
        rfl
      · exact .inr (parseredirs_missing h hs htoks fun w us heq => hword ⟨w, us, heq⟩)
    · have hdone := Bool.eq_false_of_not_eq_true hmore
      refine .inl ⟨_, [], parseredirs_done h hs hdone, ⟨(skip_spec h hs).1, rfl, fun w hw => .inl hw⟩, ?_⟩
      exact (toks_skip h hs).symm

theorem parseredirs_complete (h : IsString buf es) (hs : s ≤ es) (hn : (toks buf es s).length < n) (htoks : toks buf es s = Redir.tokens rs ++ ts) (hts : startsWith ['<', '>'] ts = false) :
    ∃ r, parseredirs buf es n cmd s = .ok r ∧ Redirects buf es cmd rs r ∧ toks buf es r.2 = ts := by
  induction rs generalizing cmd s n with
  | nil =>
    cases n with
    | zero => exact absurd hn (Nat.not_lt_zero _)
    | succ n =>
      have hdone : startsWith ['<', '>'] (toks buf es s) = false := htoks ▸ hts
      refine ⟨_, parseredirs_done h hs hdone, ⟨(skip_spec h hs).1, rfl, fun w hw => .inl hw⟩, ?_⟩
      exact (toks_skip h hs).trans htoks
  | cons r rs ih =>
    cases n with
    | zero => exact absurd hn (Nat.not_lt_zero _)
    | succ n =>
      obtain ⟨d, w⟩ := r
      have htoks' : toks buf es s = d.token :: .word w :: (Redir.tokens rs ++ ts) := htoks
      obtain ⟨x, s', heq, hs', hrest, hgood, rfl⟩ := parseredirs_step h hs htoks'
      have hlen : (toks buf es s').length < n := by
        rw [htoks', length_cons, length_cons] at hn
        rw [hrest]
        omega
      obtain ⟨r, hr, hredirs, hend⟩ := ih hs' hlen hrest
      exact ⟨r, heq.trans hr, hredirs.cons hgood, hend⟩

/-! ### Background commands -/

theorem parsebacks_spec (h : IsString buf es) (cmd : Cmd Word) (hs : s ≤ es) (hn : (toks buf es s).length < n) :
    ∃ k s', parsebacks buf es n cmd s = .ok (Cmd.back^[k] cmd, s') ∧ s' ≤ es ∧
      toks buf es s = replicate k .amp ++ toks buf es s' ∧ startsWith ['&'] (toks buf es s') = false := by
  induction n generalizing cmd s with
  | zero => exact absurd hn (Nat.not_lt_zero _)
  | succ n ih =>
    rw [parsebacks, peek_spec h hs rfl]
    by_cases hmore : startsWith ['&'] (toks buf es s) = true
    · obtain ⟨ts, htoks⟩ := startsWith_amp.mp hmore
      obtain ⟨-, hle, hrest, -⟩ := gettoken_skip h hs htoks
      have hlen : (toks buf es (gettoken buf es (skip buf es s)).s).length < n := by
        rw [htoks, length_cons] at hn
        rw [hrest]
        omega
      obtain ⟨k, s', hback, hs', hsplit, hend⟩ := ih (.back cmd) hle hlen
      dsimp only
      rw [if_pos hmore]
      refine ⟨k + 1, s', hback, hs', ?_, hend⟩
      rw [htoks, ← hrest, hsplit]
      rfl
    · dsimp only
      rw [if_neg hmore]
      refine ⟨0, _, rfl, (skip_spec h hs).1, (toks_skip h hs).symm, ?_⟩
      rw [toks_skip h hs]
      exact Bool.eq_false_of_not_eq_true hmore

theorem replicate_amp_append (hus : startsWith ['&'] us = false)
    (hus' : startsWith ['&'] us' = false) (heq : replicate k Token.amp ++ us = replicate k' .amp ++ us') :
    k = k' ∧ us = us' := by
  induction k generalizing k' with
  | zero =>
    cases k' with
    | zero => exact ⟨rfl, heq⟩
    | succ k' =>
      have hstart : us = .amp :: (replicate k' .amp ++ us') := heq
      rw [hstart] at hus
      cases hus
  | succ k ih =>
    cases k' with
    | zero =>
      have hstart : Token.amp :: (replicate k .amp ++ us) = us' := heq
      rw [← hstart] at hus'
      cases hus'
    | succ k' =>
      have htail : replicate k Token.amp ++ us = replicate k' .amp ++ us' := (cons.inj heq).2
      obtain ⟨rfl, rfl⟩ := ih htail
      exact ⟨rfl, rfl⟩

theorem parsebacks_complete (h : IsString buf es) (cmd : Cmd Word) (hs : s ≤ es) (hn : (toks buf es s).length < n) (htoks : toks buf es s = replicate k .amp ++ ts) (hts : startsWith ['&'] ts = false) :
    ∃ s', parsebacks buf es n cmd s = .ok (Cmd.back^[k] cmd, s') ∧ s' ≤ es ∧ toks buf es s' = ts := by
  obtain ⟨k', s', heq, hs', hsplit, hend⟩ := parsebacks_spec h cmd hs hn
  obtain ⟨rfl, rfl⟩ := replicate_amp_append hts hend (htoks.symm.trans hsplit)
  exact ⟨s', heq, hs', rfl⟩

/-! ### Arguments -/

variable {argc : Nat} {args : List Arg}

theorem parseargs_done (n argc : Nat) (cmd : Cmd Word) (h : IsString buf es) (hs : s ≤ es) (hdone : Follows ['|', ')', '&', ';'] (toks buf es s)) :
    ∃ s', parseargs buf es (n + 1) argc cmd s = .ok (cmd, s') ∧ s' ≤ es ∧ toks buf es s' = toks buf es s := by
  rw [parseargs, peek_spec h hs rfl]
  rcases hdone with hnil | hstop
  · obtain ⟨hret, hend⟩ := gettoken_nil h (skip_spec h hs).1 ((toks_skip h hs).trans hnil)
    refine ⟨es, ?_, Nat.le_refl es, toks_es.trans hnil.symm⟩
    rw [hnil]
    dsimp only
    rw [if_neg (by decide), if_pos hret, hend]
  · refine ⟨_, ?_, (skip_spec h hs).1, toks_skip h hs⟩
    rw [hstop]
    rfl

theorem parseargs_word (n argc : Nat) (cmd : Cmd Word) (h : IsString buf es) (hs : s ≤ es) (htoks : toks buf es s = .word w :: ts) :
    ∃ (x : Word) (s' : Nat), s' ≤ es ∧ toks buf es s' = ts ∧ x.Good buf es ∧ x.read buf = w ∧
      parseargs buf es (n + 1) argc cmd s =
        if maxargs ≤ argc + 1 then .error (.panic "too many args")
        else parseredirs buf es n (cmd.addArg x) s' >>= fun r => parseargs buf es n (argc + 1) r.1 r.2 := by
  obtain ⟨hret, hle, hrest, hword⟩ := gettoken_skip h hs htoks
  obtain ⟨hgood, hread⟩ := hword w rfl
  change _ = chr 'a' at hret
  refine ⟨_, _, hle, hrest, hgood, hread, ?_⟩
  rw [parseargs, peek_spec h hs rfl, htoks]
  dsimp only
  rw [if_neg (by rintro ⟨⟩), hret, if_neg (by decide), if_neg (fun hne => hne rfl)]

theorem parseargs_syntax (h : IsString buf es) (hs : s ≤ es) {t : Token} (htoks : toks buf es s = t :: ts)
    (hword : ∀ w, t ≠ .word w) (hstop : ¬ Follows ['|', ')', '&', ';'] (t :: ts)) :
    parseargs buf es (n + 1) argc cmd s = .error (.panic "syntax") := by
  obtain ⟨hret, -⟩ := gettoken_skip h hs htoks
  have hne : t.ret ≠ chr 'a' := by
    cases t with
    | word w => exact absurd rfl (hword w)
    | _ => decide
  rw [parseargs, peek_spec h hs rfl, htoks]
  dsimp only
  rw [if_neg (fun hstart => hstop (.inr hstart)), hret, if_neg t.ret_ne_zero, if_pos hne]

/-- What the loop makes of the words and redirections it takes. -/
structure Collects (buf : List UInt8) (es argc : Nat) (cmd : Cmd Word) (args : List Arg) (r : Cmd Word × Nat) : Prop where
  le : r.2 ≤ es
  count : argc + args.length < maxargs
  tree : ∀ argv rs, cmd.map (Word.read buf) = Redir.wrap (.exec argv) rs →
    r.1.map (Word.read buf) = Redir.wrap (.exec (argv ++ Arg.words args)) (rs ++ Arg.allRedirs args)
  words : ∀ w ∈ r.1.words, w ∈ cmd.words ∨ w.Good buf es

theorem Collects.cons {x : Word} {rs : List Redir} {r r' : Cmd Word × Nat} (hx : x.Good buf es)
    (hr : Redirects buf es (cmd.addArg x) rs r) (h : Collects buf es (argc + 1) r.1 args r') :
    Collects buf es argc cmd (⟨x.read buf, rs⟩ :: args) r' where
  le := h.le
  count := by
    have := h.count
    rw [length_cons]
    omega
  tree argv rs' hcmd := by
    have htree := hr.tree
    rw [Cmd.map_addArg, hcmd, Redir.addArg_wrap, ← Redir.wrap_append] at htree
    rw [h.tree _ _ htree]
    simp only [Arg.words, Arg.allRedirs, map_cons, flatMap_cons, append_assoc, singleton_append]
  words w hw := by
    rcases h.words w hw with hw | hw
    · rcases hr.words w hw with hw | hw
      · rcases Cmd.words_addArg hw with hw | rfl
        · exact .inl hw
        · exact .inr hx
      · exact .inr hw
    · exact .inr hw

theorem parseargs_spec (h : IsString buf es) (hs : s ≤ es) (hn : (toks buf es s).length < n) (hargc : argc < maxargs) :
    (∃ r args, parseargs buf es n argc cmd s = .ok r ∧ Collects buf es argc cmd args r ∧
      toks buf es s = Arg.tokens args ++ toks buf es r.2) ∨
    ∃ msg, parseargs buf es n argc cmd s = .error (.panic msg) := by
  induction n generalizing argc cmd s with
  | zero => exact absurd hn (Nat.not_lt_zero _)
  | succ n ih =>
    by_cases hdone : Follows ['|', ')', '&', ';'] (toks buf es s)
    · obtain ⟨s', heq, hs', htoks⟩ := parseargs_done n argc cmd h hs hdone
      refine .inl ⟨_, [], heq, ⟨hs', hargc, fun argv rs hcmd => ?_, fun w hw => .inl hw⟩, htoks.symm⟩
      rw [hcmd]
      simp [Arg.words, Arg.allRedirs]
    · cases htoks : toks buf es s with
      | nil => exact absurd (.inl htoks) hdone
      | cons t ts =>
        by_cases hword : ∃ w, t = .word w
        · obtain ⟨w, rfl⟩ := hword
          obtain ⟨x, s', hs', htoks', hgood, rfl, heq⟩ := parseargs_word n argc cmd h hs htoks
          rw [heq]
          split
          · exact .inr ⟨_, rfl⟩
          · rename_i hcount
            rw [htoks, length_cons, ← htoks'] at hn
            rcases parseredirs_spec h hs' (Nat.lt_of_succ_lt_succ hn) with ⟨r, rs, hr, hredirs, hsplit⟩ | hmissing
            · have hlen : (toks buf es r.2).length < n := by
                rw [hsplit, length_append] at hn
                omega
              rw [hr]
              refine (ih hredirs.le hlen (Nat.lt_of_not_le hcount)).imp_left ?_
              rintro ⟨r', args, hr', hcollects, hsplit'⟩
              refine ⟨r', _, hr', hcollects.cons hgood hredirs, ?_⟩
              rw [← htoks', hsplit, hsplit']
              simp only [Arg.tokens, flatMap_cons, cons_append, append_assoc]
            · rw [hmissing]
              exact .inr ⟨_, rfl⟩
        · exact .inr ⟨_, parseargs_syntax h hs htoks (fun w heq => hword ⟨w, heq⟩) (htoks ▸ hdone)⟩

theorem parseargs_complete (h : IsString buf es) (hs : s ≤ es) (hn : (toks buf es s).length < n) (hargc : argc + args.length < maxargs) (htoks : toks buf es s = Arg.tokens args ++ ts) (hts : Follows ['|', ')', '&', ';'] ts) :
    ∃ r, parseargs buf es n argc cmd s = .ok r ∧ Collects buf es argc cmd args r ∧ toks buf es r.2 = ts := by
  induction args generalizing argc cmd s n with
  | nil =>
    cases n with
    | zero => exact absurd hn (Nat.not_lt_zero _)
    | succ n =>
      obtain ⟨s', heq, hs', htoks'⟩ := parseargs_done n argc cmd h hs (htoks ▸ hts)
      refine ⟨_, heq, ⟨hs', hargc, fun argv rs hcmd => ?_, fun w hw => .inl hw⟩, htoks'.trans htoks⟩
      rw [hcmd]
      simp [Arg.words, Arg.allRedirs]
  | cons a args ih =>
    cases n with
    | zero => exact absurd hn (Nat.not_lt_zero _)
    | succ n =>
      obtain ⟨w, rs⟩ := a
      have htoks' : toks buf es s = .word w :: (Redir.tokens rs ++ (Arg.tokens args ++ ts)) := by
        rw [htoks]
        simp only [Arg.tokens, flatMap_cons, cons_append, append_assoc]
      obtain ⟨x, s', hs', hrest, hgood, rfl, heq⟩ := parseargs_word n argc cmd h hs htoks'
      rw [htoks', length_cons, ← hrest] at hn
      rw [length_cons] at hargc
      have hwords : startsWith ['<', '>'] (Arg.tokens args ++ ts) = false := by
        cases args with
        | nil => exact hts.not_startsWith rfl
        | cons a args => rfl
      obtain ⟨r, hr, hredirs, hend⟩ := parseredirs_complete h hs' (Nat.lt_of_succ_lt_succ hn) hrest hwords
      have hlen : (toks buf es r.2).length < n := by
        rw [hrest, length_append, ← hend] at hn
        omega
      obtain ⟨r', hr', hcollects, hend'⟩ := ih hredirs.le hlen (by omega : argc + 1 + args.length < maxargs) hend
      refine ⟨r', ?_, hcollects.cons hgood hredirs, hend'⟩
      rw [heq, if_neg (by omega), hr]
      exact hr'

end Loops

end RainOS.Sh
