import RainOS.Process.Program
import RainOS.Process.Runs

/-!
# exec fails atomically

Up to its commit `exec` changes memory, the log's counters and the inode's lock and reference, and every jump to `bad`
undoes what was taken. The exception is a header read that fails: it is not noticed, and `exec` goes on with whatever
the stack held.
-/

namespace RainOS.Program

open Kalloc Vm Process Function List

variable {α : Type} {w w' w'' : World} {ip : Inode} {file : Option Inode} {p : Slot}
  {data cur pgdir addr off sz n i r : Nat} {path old old' bytes elf ph ph' : List UInt8} {argv : List (List UInt8)}
  {step : Step} {a : Int × List UInt8} {input : List Line} {ok : Bool} {x f : E α}

/-! ### Code that only works on memory -/

/-- Everything but memory, the history of loads and the input is as before. -/
structure Quiet (w w' : World) : Prop where
  procs : w'.machine.procs = w.machine.procs
  context : w'.context = w.context
  busy : w'.busy = w.busy
  ref : w'.ref = w.ref
  begun : w'.begun = w.begun
  ended : w'.ended = w.ended

structure Same (w w' : World) : Prop extends Quiet w w' where
  failed : w'.failed = w.failed

structure Fails (w w' : World) : Prop extends Quiet w w' where
  failed : ∃ step, w'.failed = w.failed ++ [step]

theorem Same.refl (w : World) : Same w w := ⟨⟨rfl, rfl, rfl, rfl, rfl, rfl⟩, rfl⟩

theorem Quiet.trans (h : Quiet w w') (h' : Quiet w' w'') : Quiet w w'' :=
  ⟨h'.procs.trans h.procs, h'.context.trans h.context, h'.busy.trans h.busy, h'.ref.trans h.ref,
    h'.begun.trans h.begun, h'.ended.trans h.ended⟩

theorem Same.trans (h : Same w w') (h' : Same w' w'') : Same w w'' :=
  ⟨h.toQuiet.trans h'.toQuiet, h'.failed.trans h.failed⟩

theorem Same.fails (h : Same w w') (h' : Fails w' w'') : Fails w w'' :=
  ⟨h.toQuiet.trans h'.toQuiet, h.failed ▸ h'.failed⟩

theorem mem_same (x : Vm.M α) (w : World) : Ends (mem x) w (fun _ w' => Same w w') fun _ _ => True := by
  cases hx : x w.machine.mem with
  | ok a m =>
    have hrun : mem x w = .ok a { w with machine.mem := m } := by simp only [mem, hx]
    exact .of_run_ok hrun ⟨⟨rfl, rfl, rfl, rfl, rfl, rfl⟩, rfl⟩
  | error e m =>
    have hrun : mem x w = .error e { w with machine.mem := m } := by simp only [mem, hx]
    exact .of_run_error hrun trivial

theorem check_ok (h : ok = true) (step : Step) (w : World) : check ok step w = .ok () w := by
  subst h
  rfl

theorem check_fails (h : ok = false) (step : Step) (w : World) :
    Ends (check ok step) w (fun _ w' => Fails w w') fun _ _ => True := by
  subst h
  exact .modify ⟨⟨rfl, rfl, rfl, rfl, rfl, rfl⟩, step, rfl⟩

/-- The result of `readi` and the bytes it stores, if there is input for them. -/
def readResult (ip : Inode) (off n : Nat) (input : List Line) : Option (Int × List UInt8) :=
  match ip with
  | .device major => if major < 0 ∨ major ≥ ndev ∨ devswRead major = false then some (-1, []) else input.head?.map (·.read n)
  | .data file => some ((Process.readi file off n).elim (-1, []) fun bytes => (bytes.length, bytes))

theorem iunlock_run (hbusy : w.busy = true) (href : w.ref ≠ 0) : iunlock w = .ok () { w with busy := false } := by
  unfold iunlock
  rw [bind_ok _ (get_run w), if_neg (by simp [hbusy]; omega)]
  rfl

theorem ilock_run (hbusy : w.busy = false) (href : w.ref ≠ 0) : ilock w = .ok () { w with busy := true } := by
  unfold ilock
  rw [bind_ok _ (get_run w), if_neg (by omega), if_neg (by simp [hbusy])]
  rfl

theorem readi_ends (ip : Inode) (off n : Nat) (hbusy : w.busy = true) (href : w.ref ≠ 0) :
    Ends (readi ip off n) w
      (fun a w' => (∃ input, w' = { w with input := input }) ∧ readResult ip off n w.input = some a)
      fun _ _ => readResult ip off n w.input = none := by
  unfold readi readResult
  cases ip with
  | data file =>
    dsimp only
    cases Process.readi file off n with
    | none => exact .pure ⟨⟨w.input, rfl⟩, rfl⟩
    | some bytes => exact .pure ⟨⟨w.input, rfl⟩, rfl⟩
  | device major =>
    dsimp only
    split
    · exact .pure ⟨⟨w.input, rfl⟩, rfl⟩
    · unfold consoleread
      refine .after_ok (iunlock_run hbusy href) (.after_ok (get_run _) ?_)
      dsimp only
      cases w.input with
      | nil => exact .throw rfl
      | cons line lines =>
        refine .after_ok (set_run ..) (.after_ok (ilock_run rfl href) (.pure ⟨⟨line.rest n lines, ?_⟩, rfl⟩))
        rw [← hbusy]

theorem readi_same (ip : Inode) (off n : Nat) (hbusy : w.busy = true) (href : w.ref ≠ 0) :
    Ends (readi ip off n) w (fun a w' => Same w w' ∧ readResult ip off n w.input = some a) fun _ _ => True := by
  refine (readi_ends ip off n hbusy href).mono ?_ fun _ _ _ => trivial
  rintro a _ ⟨⟨input, rfl⟩, hresult⟩
  exact ⟨⟨⟨rfl, rfl, rfl, rfl, rfl, rfl⟩, rfl⟩, hresult⟩

theorem readi_run (hbusy : w.busy = true) (href : w.ref ≠ 0)
    (h : readResult ip off n w.input = some a) : ∃ input, readi ip off n w = .ok a { w with input := input } := by
  have hends := readi_ends ip off n hbusy href
  cases hrun : readi ip off n w with
  | error e w' =>
    rw [hends.of_error hrun] at h
    cases h
  | ok a' w' =>
    obtain ⟨⟨input, rfl⟩, hresult⟩ := hends.of_ok hrun
    obtain rfl := Option.some.inj (h.symm.trans hresult)
    exact ⟨input, rfl⟩

theorem readResult_cases (h : readResult ip off n input = some a) :
    a.1 = -1 ∨ a.1 = a.2.length ∧ a.2.length ≤ n := by
  cases ip with
  | data file =>
    obtain rfl := Option.some.inj h
    cases hread : Process.readi file off n with
    | none => exact .inl rfl
    | some bytes => exact .inr ⟨rfl, (readi_some hread).2.1⟩
  | device major =>
    unfold readResult at h
    dsimp only at h
    split at h
    · obtain rfl := Option.some.inj h
      exact .inl rfl
    · obtain ⟨line, -, rfl⟩ := Option.map_eq_some_iff.mp h
      unfold Line.read
      split
      · exact .inl rfl
      · exact .inr ⟨rfl, length_take_le ..⟩

theorem result_eq_iff (h : readResult ip off n input = some a) (hn : n < 2 ^ 32 - 1) : a.1 % 2 ^ 32 = n ↔ a.1 = n := by
  obtain hneg | ⟨hlen, hle⟩ := readResult_cases h <;> omega

theorem loadLoop_same (count i : Nat) (hbusy : w.busy = true) (href : w.ref ≠ 0) :
    Ends (loadLoop cur pgdir addr ip off sz count i) w (fun _ w' => Same w w') fun _ _ => True := by
  induction count generalizing w i with
  | zero =>
    unfold loadLoop
    split
    · exact .throw trivial
    · exact .pure (.refl w)
  | succ count ih =>
    unfold loadLoop
    refine (mem_same _ w).bind fun pte w₁ h₁ => ?_
    dsimp only
    refine .ite (fun _ => .after_error rfl trivial) fun _ => .after_ok (get_run w₁) ?_
    refine (readi_same ip _ _ (h₁.busy.trans hbusy) (h₁.ref ▸ href)).bind fun a w₂ h₂ => ?_
    have hrest : ∀ w₃, Same w w₃ → Ends (do
        mem (memmove cur (p2v (pteAddr (w₁.machine.mem.word pte))) a.2)
        if a.1 % 2 ^ 32 ≠ roundSize sz i then return -1
        loadLoop cur pgdir addr ip off sz count (i + pgsize)) w₃ (fun _ w' => Same w w') fun _ _ => True := by
      intro w₃ h₃
      refine (mem_same _ w₃).bind fun _ w₄ h₄ => ?_
      have hall := h₃.trans h₄
      split
      · exact .pure hall
      · exact (ih _ (hall.busy.trans hbusy) (hall.ref ▸ href)).mono (fun _ _ h => hall.trans h) fun _ _ _ => trivial
    have hall := h₁.trans h₂.1
    refine .ite (fun _ => .after_ok (modify_run ..) (hrest _ (hall.trans ?_))) fun _ => hrest _ hall
    exact ⟨⟨rfl, rfl, rfl, rfl, rfl, rfl⟩, rfl⟩

theorem loaduvm_same (hbusy : w.busy = true) (href : w.ref ≠ 0) :
    Ends (loaduvm cur pgdir addr ip off sz) w (fun _ w' => Same w w') fun _ _ => True := by
  unfold loaduvm
  exact .ite (fun _ => .after_error rfl trivial) fun _ => loadLoop_same _ _ hbusy href

theorem Same.test {Q : α → World → Prop} {c : Prop} [Decidable c] (step : Step)
    (h : Same w w') (hc : c ↔ ok = false) (hok : ok = true → Ends x w' Q fun _ _ => True)
    (hfail : ok = false → ∀ w'', Fails w w'' → Ends f w'' Q fun _ _ => True) :
    Ends (do check ok step; if c then f else x) w' Q fun _ _ => True := by
  cases ok with
  | true =>
    rw [if_neg fun hcon => absurd (hc.mp hcon) (by decide)]
    exact .after_ok (check_ok rfl step w') (hok rfl)
  | false =>
    rw [if_pos (hc.mpr rfl)]
    exact (check_fails rfl step w').bind fun _ w'' hw'' => hfail rfl w'' (h.fails hw'')

def HeadersEnd (w : World) (r : Option Nat) (w' : World) : Prop := if r.isSome then Same w w' else Fails w w'

theorem loadHeaders_ends (n : Nat) (hbusy : w.busy = true) (href : w.ref ≠ 0) :
    Ends (loadHeaders cur pgdir ip n off sz old) w (HeadersEnd w) fun _ _ => True := by
  have hgo : ∀ w', Same w w' → w'.busy = true ∧ w'.ref ≠ 0 := fun w' h => ⟨h.busy.trans hbusy, h.ref ▸ href⟩
  induction n generalizing w off sz old with
  | zero => exact .pure (.refl w)
  | succ n ih =>
    have hrest : ∀ w' off sz old, Same w w' →
        Ends (loadHeaders cur pgdir ip n off sz old) w' (HeadersEnd w) fun _ _ => True := by
      intro w' off sz old h
      obtain ⟨hbusy', href'⟩ := hgo w' h
      refine (ih hbusy' href' fun w'' h'' => hgo w'' (h.trans h'')).mono (fun r w'' hr => ?_) fun _ _ _ => trivial
      cases r with
      | none => exact h.fails hr
      | some sz => exact h.trans hr
    unfold loadHeaders
    refine (readi_same ip _ _ hbusy href).bind fun a w₁ ⟨h₁, hread⟩ => ?_
    refine h₁.test .programHeader ?_ (fun _ => ?_) fun _ w' hw' => .pure hw'
    · rw [decide_eq_false_iff_not]
      exact not_congr (result_eq_iff hread (by decide))
    refine .ite (fun _ => hrest _ _ _ _ h₁) fun _ => ?_
    refine h₁.test .segment ?_ (fun _ => ?_) fun _ w' hw' => .pure hw'
    · rw [decide_eq_false_iff_not, Nat.not_le]
    refine (mem_same _ w₁).bind fun sz' w₂ h₂ => ?_
    have hall₂ := h₁.trans h₂
    refine hall₂.test .memory ?_ (fun _ => ?_) fun _ w' hw' => .pure hw'
    · rw [decide_eq_false_iff_not, not_not]
    refine (loaduvm_same (hgo w₂ hall₂).1 (hgo w₂ hall₂).2).bind fun r w₃ h₃ => ?_
    have hall₃ := hall₂.trans h₃
    refine hall₃.test .load ?_ (fun _ => ?_) fun _ w' hw' => .pure hw'
    · rw [decide_eq_false_iff_not, Int.not_le]
    exact hrest _ _ _ _ hall₃

/-! ### Letting go -/

/-- The inode is unlocked and its reference dropped, and the log operation has ended. -/
structure LetGo (w w' : World) : Prop where
  procs : w'.machine.procs = w.machine.procs
  context : w'.context = w.context
  busy : w'.busy = false
  ref : w'.ref = w.ref - 1
  begun : w'.begun = w.begun
  ended : w'.ended = w.ended + 1
  failed : w'.failed = w.failed

theorem release_run (hbusy : w.busy = true) (href : w.ref ≠ 0) :
    (do iunlockput; endOp; f) w = f { w with busy := false, ref := w.ref - 1, ended := w.ended + 1 } := by
  have hunlock : iunlockput w = .ok () { w with busy := false, ref := w.ref - 1 } := bind_ok _ (iunlock_run hbusy href)
  rw [bind_ok _ hunlock]
  rfl

theorem bad_zero_run (hbusy : w.busy = true) (href : w.ref ≠ 0) :
    bad 0 true w = .ok (-1) { w with busy := false, ref := w.ref - 1, ended := w.ended + 1 } := by
  unfold bad
  simp only [↓reduceIte]
  rw [if_neg (by decide)]
  exact release_run hbusy href

theorem bad_held (pgdir : Nat) (hbusy : w.busy = true) (href : w.ref ≠ 0) :
    Ends (bad pgdir true) w (fun r w' => r = -1 ∧ LetGo w w') fun _ _ => True := by
  have hrelease : ∀ w₁, Same w w₁ → Ends (do iunlockput; endOp; return -1) w₁
      (fun (r : Int) w' => r = -1 ∧ LetGo w w') fun _ _ => True := by
    intro w₁ h₁
    exact .congr (release_run (h₁.busy.trans hbusy) (h₁.ref ▸ href)) (.pure ⟨rfl, h₁.procs, h₁.context, rfl,
      congrArg (· - 1) h₁.ref, h₁.begun, congrArg (· + 1) h₁.ended, h₁.failed⟩)
  unfold bad
  simp only [↓reduceIte]
  exact .ite (fun _ => (mem_same _ w).bind fun _ w₁ h₁ => hrelease w₁ h₁) fun _ => hrelease w (.refl w)

theorem bad_free (pgdir : Nat) (w : World) :
    Ends (bad pgdir false) w (fun r w' => r = -1 ∧ Same w w') fun _ _ => True := by
  unfold bad
  simp only [Bool.false_eq_true, ↓reduceIte]
  exact .ite (fun _ => (mem_same _ w).bind fun _ w₁ h₁ => .pure ⟨rfl, h₁⟩) fun _ => .pure ⟨rfl, .refl w⟩

/-! ### How exec ends -/

/-- The call has failed at a step and changed nothing, or no step has failed; and in any case it has let go of the inode
and of the log. -/
structure Outcome (w : World) (r : Int) (w' : World) : Prop where
  result : r = 0 ∧ w'.failed = w.failed ∨ r = -1 ∧ ∃ step, w'.failed = w.failed ++ [step]
  unchanged : r = -1 → w'.machine.procs = w.machine.procs ∧ w'.context = w.context
  unlocked : w'.busy = w.busy
  dropped : w'.ref = w.ref
  begun : w'.begun = w.begun + 1
  ended : w'.ended = w.ended + 1

/-- The inode is locked and referenced, and the log operation has begun. -/
structure Holding (w w' : World) : Prop where
  procs : w'.machine.procs = w.machine.procs
  context : w'.context = w.context
  free : w.busy = false
  busy : w'.busy = true
  ref : w'.ref = w.ref + 1
  begun : w'.begun = w.begun + 1
  ended : w'.ended = w.ended

theorem Holding.quiet (h : Holding w w') (h' : Quiet w' w'') : Holding w w'' :=
  ⟨h'.procs.trans h.procs, h'.context.trans h.context, h.free, h'.busy.trans h.busy, h'.ref.trans h.ref,
    h'.begun.trans h.begun, h'.ended.trans h.ended⟩

theorem Holding.ref_ne (h : Holding w w') : w'.ref ≠ 0 := by
  rw [h.ref]
  exact Nat.succ_ne_zero _

theorem Holding.bad (h : Holding w w') (hfailed : ∃ step, w'.failed = w.failed ++ [step]) (pgdir : Nat) :
    Ends (bad pgdir true) w' (Outcome w) fun _ _ => True := by
  refine (bad_held pgdir h.busy h.ref_ne).mono ?_ fun _ _ _ => trivial
  rintro _ w'' ⟨rfl, hgo⟩
  refine ⟨.inr ⟨rfl, hgo.failed ▸ hfailed⟩, fun _ => ⟨hgo.procs.trans h.procs, hgo.context.trans h.context⟩,
    hgo.busy.trans h.free.symm, ?_, hgo.begun.trans h.begun, ?_⟩
  · rw [hgo.ref, h.ref, Nat.add_sub_cancel]
  · rw [hgo.ended, h.ended]

/-- The inode is released, the log operation ended, and the process as before. -/
structure Freed (w w' : World) : Prop where
  procs : w'.machine.procs = w.machine.procs
  context : w'.context = w.context
  busy : w'.busy = w.busy
  ref : w'.ref = w.ref
  begun : w'.begun = w.begun + 1
  ended : w'.ended = w.ended + 1

theorem Freed.quiet (h : Freed w w') (h' : Quiet w' w'') : Freed w w'' :=
  ⟨h'.procs.trans h.procs, h'.context.trans h.context, h'.busy.trans h.busy, h'.ref.trans h.ref,
    h'.begun.trans h.begun, h'.ended.trans h.ended⟩

theorem Freed.bad (h : Freed w w') (hfailed : ∃ step, w'.failed = w.failed ++ [step]) (pgdir : Nat) :
    Ends (bad pgdir false) w' (Outcome w) fun _ _ => True := by
  refine (bad_free pgdir w').mono ?_ fun _ _ _ => trivial
  rintro _ w'' ⟨rfl, hsame⟩
  have hfreed := h.quiet hsame.toQuiet
  exact ⟨.inr ⟨rfl, hsame.failed ▸ hfailed⟩, fun _ => ⟨hfreed.procs, hfreed.context⟩, hfreed.busy, hfreed.ref,
    hfreed.begun, hfreed.ended⟩

theorem Freed.finish (h : Freed w w') (hfailed : w'.failed = w.failed) (sz entry : Nat) :
    Ends (finish p path cur pgdir sz entry argv) w' (Outcome w) fun _ _ => True := by
  have hbad : ∀ w'', Fails w' w'' → Ends (Program.bad pgdir false) w'' (Outcome w) fun _ _ => True :=
    fun w'' hw'' => (h.quiet hw''.toQuiet).bad (hfailed ▸ hw''.failed) pgdir
  unfold Program.finish
  refine (mem_same _ w').bind fun sz' w₁ h₁ => ?_
  refine h₁.test .memory ?_ (fun _ => ?_) fun _ => hbad
  · rw [decide_eq_false_iff_not, not_not]
  refine (mem_same _ w₁).bind fun sp w₂ h₂ => ?_
  have hall := h₁.trans h₂
  cases sp with
  | none => exact (check_fails rfl .stack w₂).bind fun _ w₃ h₃ => hbad w₃ (hall.fails h₃)
  | some sp =>
    have hfreed := h.quiet hall.toQuiet
    refine .after_ok (check_ok rfl .stack w₂) (.after_ok (modify_run ..) ?_)
    refine (mem_same _ _).bind fun _ w₃ h₃ => .pure ?_
    exact ⟨.inl ⟨rfl, h₃.failed.trans (hall.failed.trans hfailed)⟩, nofun, h₃.busy.trans hfreed.busy,
      h₃.ref.trans hfreed.ref, h₃.begun.trans hfreed.begun, h₃.ended.trans hfreed.ended⟩

theorem Holding.load (h : Holding w w') (hfailed : w'.failed = w.failed) (elf ph : List UInt8) :
    Ends (load data p path ip elf ph argv) w' (Outcome w) fun _ _ => True := by
  have hbad : ∀ pgdir w'', Fails w' w'' → Ends (Program.bad pgdir true) w'' (Outcome w) fun _ _ => True :=
    fun pgdir w'' hw'' => (h.quiet hw''.toQuiet).bad (hfailed ▸ hw''.failed) pgdir
  unfold Program.load
  refine (Same.refl w').test .magic ?_ (fun _ => ?_) fun _ => hbad 0
  · rw [decide_eq_false_iff_not]
  refine .after_ok (get_run w') ((mem_same _ w').bind fun pgdir w₁ h₁ => ?_)
  refine h₁.test .directory ?_ (fun _ => ?_) fun _ => hbad 0
  · rw [decide_eq_false_iff_not, not_not]
  have hold₁ := h.quiet h₁.toQuiet
  refine (loadHeaders_ends _ hold₁.busy hold₁.ref_ne).bind fun sz w₂ h₂ => ?_
  cases sz with
  | none => exact hbad pgdir w₂ (h₁.fails h₂)
  | some sz =>
    have hall : Same w' w₂ := h₁.trans h₂
    have hold₂ := h.quiet hall.toQuiet
    have hfreed : Freed w { w₂ with busy := false, ref := w₂.ref - 1, ended := w₂.ended + 1 } :=
      ⟨hold₂.procs, hold₂.context, h.free.symm, Nat.sub_eq_of_eq_add hold₂.ref, hold₂.begun, congrArg _ hold₂.ended⟩
    exact .congr (release_run hold₂.busy hold₂.ref_ne) (hfreed.finish (hall.failed.trans hfailed) sz _)

/-- What the read of the ELF header returns, if there is an inode and input for it. -/
def headerRead (file : Option Inode) (input : List Line) : Option (Int × List UInt8) :=
  file.bind fun ip => readResult ip 0 elfhdrSize input

theorem exec_locked (ip : Inode) (locals : Locals) (hfree : w.busy = false) :
    exec data p path (some ip) locals argv w = (do
      let (r, bytes) ← readi ip 0 elfhdrSize
      check (r = elfhdrSize) .header
      if r % 2 ^ 32 < elfhdrSize then bad 0 true
      else load data p path ip (fill locals.elf bytes) locals.ph argv)
      { w with begun := w.begun + 1, ref := w.ref + 1, busy := true } := by
  have hlock : ilock { w with begun := w.begun + 1, ref := w.ref + 1 } =
      .ok () { w with begun := w.begun + 1, ref := w.ref + 1, busy := true } := ilock_run hfree (Nat.succ_ne_zero _)
  unfold exec
  rw [bind_ok _ (show beginOp w = .ok () _ from rfl), bind_ok _ (show check (some ip).isSome .path _ = .ok () _ from rfl)]
  dsimp only
  rw [bind_ok _ (show iget _ = .ok () _ from rfl)]
  exact bind_ok _ hlock

theorem exec_busy (ip : Inode) (locals : Locals) (hbusy : w.busy = true) :
    exec data p path (some ip) locals argv w = .error .asleep { w with begun := w.begun + 1, ref := w.ref + 1 } := by
  have hlock : ilock { w with begun := w.begun + 1, ref := w.ref + 1 } =
      .error .asleep { w with begun := w.begun + 1, ref := w.ref + 1 } := by
    unfold ilock
    rw [bind_ok _ (get_run _), if_neg (by simp), if_pos hbusy]
    rfl
  unfold exec
  rw [bind_ok _ (show beginOp w = .ok () _ from rfl), bind_ok _ (show check (some ip).isSome .path _ = .ok () _ from rfl)]
  dsimp only
  rw [bind_ok _ (show iget _ = .ok () _ from rfl)]
  exact bind_error _ hlock

/-- A read that does not fail is complete, or `exec` sees that it is short. -/
theorem short_iff (h : readResult ip off n input = some a) (hn : n < 2 ^ 32)
    (hne : a.1 ≠ -1) : a.1 % 2 ^ 32 < n ↔ a.1 ≠ n := by
  obtain hneg | ⟨hlen, hle⟩ := readResult_cases h
  · exact absurd hneg hne
  · omega

theorem exec_outcome (data : Nat) (p : Slot) (path : List UInt8) (locals : Locals) (argv : List (List UInt8))
    (hread : ∀ bytes, headerRead file w.input ≠ some (-1, bytes)) :
    Ends (exec data p path file locals argv) w (Outcome w) fun _ _ => True := by
  cases file with
  | none =>
    unfold exec
    refine .after_ok (modify_run ..) ((check_fails rfl .path _).bind fun _ w₁ h₁ => ?_)
    exact .after_ok (modify_run ..) (.pure ⟨.inr ⟨rfl, h₁.failed⟩, fun _ => ⟨h₁.procs, h₁.context⟩, h₁.busy,
      h₁.ref, h₁.begun, congrArg (· + 1) h₁.ended⟩)
  | some ip =>
    cases hbusy : w.busy with
    | true => exact .of_run_error (exec_busy ip locals hbusy) trivial
    | false =>
      have hold : Holding w { w with begun := w.begun + 1, ref := w.ref + 1, busy := true } :=
        ⟨rfl, rfl, hbusy, rfl, rfl, rfl, rfl⟩
      refine .congr (exec_locked ip locals hbusy) ?_
      refine (readi_same ip 0 elfhdrSize hold.busy hold.ref_ne).bind fun a w₁ ⟨h₁, hresult⟩ => ?_
      have hok : a.1 ≠ -1 := fun hneg => hread a.2 (hresult.trans (by rw [← hneg]))
      refine h₁.test .header ?_ (fun _ => ?_) fun _ w₂ h₂ => (hold.quiet h₂.toQuiet).bad h₂.failed 0
      · rw [decide_eq_false_iff_not]
        exact short_iff hresult (by decide) hok
      · exact (hold.quiet h₁.toQuiet).load h₁.failed _ _

/-! ### What the stack held -/

theorem fill_eq (h : old.length ≤ bytes.length) (h' : old'.length ≤ bytes.length) :
    fill old bytes = fill old' bytes := by
  rw [fill, fill, drop_of_length_le h, drop_of_length_le h']

theorem loadHeaders_independent (hbusy : w.busy = true) (href : w.ref ≠ 0)
    (h : old.length = proghdrSize) (h' : old'.length = proghdrSize) :
    loadHeaders cur pgdir ip n off sz old w = loadHeaders cur pgdir ip n off sz old' w := by
  cases n with
  | zero => rfl
  | succ n =>
    unfold loadHeaders
    refine bind_eq_bind fun a w₁ hrun => ?_
    obtain ⟨-, hresult⟩ := (readi_same ip _ _ hbusy href).of_ok hrun
    refine bind_eq_bind fun _ w₂ _ => ?_
    by_cases hshort : a.1 % 2 ^ 32 ≠ proghdrSize
    · rw [if_pos hshort, if_pos hshort]
    · have hlen : a.2.length = proghdrSize := by
        have hfull := (result_eq_iff hresult (by decide)).mp (not_not.mp hshort)
        obtain hneg | ⟨hcount, -⟩ := readResult_cases hresult
        · rw [hneg] at hfull
          cases hfull
        · omega
      rw [if_neg hshort, if_neg hshort, fill_eq (by omega) (show old'.length ≤ a.2.length by omega)]

theorem load_independent (hbusy : w.busy = true) (href : w.ref ≠ 0)
    (h : ph.length = proghdrSize) (h' : ph'.length = proghdrSize) :
    load data p path ip elf ph argv w = load data p path ip elf ph' argv w := by
  unfold load
  by_cases hmagic : (Elfhdr.read elf).magic ≠ elfMagic
  · rw [if_pos hmagic, if_pos hmagic]
  rw [if_neg hmagic, if_neg hmagic, bind_ok _ (check_ok (by simpa using hmagic) ..),
    bind_ok _ (check_ok (by simpa using hmagic) ..), bind_ok _ (get_run w), bind_ok _ (get_run w)]
  refine bind_eq_bind fun pgdir w₁ hdir => ?_
  have h₁ := (mem_same _ w).of_ok hdir
  by_cases hzero : pgdir = 0
  · rw [if_pos hzero, if_pos hzero]
  · rw [if_neg hzero, if_neg hzero, bind_ok _ (check_ok (by simpa using hzero) ..),
      bind_ok _ (check_ok (by simpa using hzero) ..)]
    exact bind_eq_of_run _ (loadHeaders_independent (h₁.busy.trans hbusy) (h₁.ref ▸ href) h h')

theorem exec_independent (data : Nat) (p : Slot) (path : List UInt8) (argv : List (List UInt8))
    (hread : ∀ bytes, headerRead file w.input ≠ some (-1, bytes)) (locals locals' : Locals) :
    exec data p path file locals argv w = exec data p path file locals' argv w := by
  cases file with
  | none =>
    unfold exec
    rfl
  | some ip =>
    cases hbusy : w.busy with
    | true => rw [exec_busy ip locals hbusy, exec_busy ip locals' hbusy]
    | false =>
      rw [exec_locked ip locals hbusy, exec_locked ip locals' hbusy]
      refine bind_eq_bind fun a w₁ hrun => ?_
      obtain ⟨h₁, hresult⟩ := (readi_same ip _ _ rfl (Nat.succ_ne_zero _)).of_ok hrun
      have hok : a.1 ≠ -1 := fun hneg => hread a.2 (hresult.trans (by rw [← hneg]))
      dsimp only
      by_cases hshort : a.1 % 2 ^ 32 < elfhdrSize
      · rw [if_pos hshort, if_pos hshort]
      · have hfull := not_not.mp (mt (short_iff hresult (by decide) hok).mpr hshort)
        have hlen : a.2.length = elfhdrSize := by
          have hcount := ((readResult_cases hresult).resolve_left hok).1
          omega
        have hsame : fill locals.elf a.2 = fill locals'.elf a.2 :=
          fill_eq (by rw [hlen, locals.elf_length]) (by rw [hlen, locals'.elf_length])
        rw [if_neg hshort, if_neg hshort, hsame, bind_ok _ (check_ok (decide_eq_true hfull) ..),
          bind_ok _ (check_ok (decide_eq_true hfull) ..)]
        exact load_independent h₁.busy (h₁.ref ▸ Nat.succ_ne_zero _) locals.ph_length locals'.ph_length

/-! ### A header that was never read -/

theorem mem_spec {x : Vm.M α} {Q : α → Memory → Prop} (h : Ends x w.machine.mem Q fun _ _ => False) :
    Ends (mem x) w (fun a w' => ∃ m', w' = { w with machine.mem := m' } ∧ Q a m') fun _ _ => False := by
  obtain ⟨a, m, hx, hQ⟩ := h.exists_ok
  have hrun : mem x w = .ok a { w with machine.mem := m } := by simp only [mem, hx]
  exact .of_run_ok hrun ⟨m, rfl, hQ⟩

section Empty

variable {m₀ m : Memory} {l₀ l : List Nat} {own₀ own : Nat → Option Owner} {d : Nat}

theorem pushStack_empty (cur : Nat) (h : Building m₀ l₀ own₀ d (2 * pgsize) m l own) :
    Ends (pushStack cur d (2 * pgsize) []) m (fun r m' => r.isSome ∧ Held m₀ l₀ own₀ d none m' l own)
      fun _ _ => False := by
  have hfirst : (0 : Nat) < npages (2 * pgsize) := by decide
  have hsecond : (1 : Nat) < npages (2 * pgsize) := by decide
  have hclear := (clearpteu_spec h.toHeld h.image (show 0 < 2 * pgsize by decide)).and
    (clearpteu_others h.owned h.live (by decide) (h.image.table_of_inside hfirst))
  unfold pushStack
  refine hclear.bind fun _ m₁ ⟨⟨hheld, himage⟩, hothers⟩ => ?_
  refine .after_ok (show pushArgs cur d [] 0 (2 * pgsize) m₁ = .ok (some (2 * pgsize, [])) m₁ from rfl) ?_
  have hentry : pteAt m₁.word d (0x1FF0 / pgsize) = pteAt m.word d 1 := hothers 1 (by decide) (by decide)
  have huser : pteAt m.word d 1 / pteU % 2 ≠ 0 := by
    have hflags : pteAt m.word d 1 % 4096 = 7 := h.flags 1 hsecond
    unfold pteU
    omega
  have hcopy := copyout_page cur (ustack (2 * pgsize) 0 []) hheld.owned hheld.live (show 0x1FF0 < kernbase by decide)
    (by rw [hentry]; exact h.image.inside 1 hsecond) (by rw [hentry]; exact huser) (by decide)
  refine (hcopy.and (copyout_spec hheld himage (.inr (.inl (by decide))))).bind fun r m₂ ⟨hr, _, hheld₂, _⟩ => ?_
  rw [hr, if_neg (by decide)]
  exact .pure ⟨rfl, hheld₂⟩

theorem finish_empty (p : Slot) (path : List UInt8) (entry : Nat) (h : Building m₀ l₀ own₀ d 0 w.machine.mem l own)
    (hold : own₀ cur = some .directory) (hmany : 3 ≤ l.length) :
    Ends (finish p path cur d 0 entry []) w (fun r w' => r = 0 ∧ w'.failed = w.failed) fun _ _ => False := by
  have hneeds : (growRequests 0 (2 * pgsize)).length ≤ 3 := by decide
  have hnot : ∀ q, (growRequests 0 (2 * pgsize))[l.length]? ≠ some q := fun q hq => by
    have hlt := (List.getElem?_eq_some_iff.mp hq).1
    omega
  unfold finish
  refine (mem_spec (h.allocuvm (2 * pgsize))).bind fun sz w₁ ⟨m₁, hw₁, hends⟩ => ?_
  subst hw₁
  cases hends with
  | refused hbig => exact absurd hbig (by decide)
  | kept _ hlt => exact absurd hlt (by decide)
  | short _ _ _ hreq => exact absurd hreq (hnot _)
  | failed _ _ _ _ _ _ _ hreq => exact absurd hreq (hnot _)
  | grown _ l₁ own₁ _ _ hbuild _ =>
    refine .after_ok (check_ok rfl ..) ?_
    rw [if_neg (by decide)]
    refine (mem_spec (pushStack_empty cur hbuild)).bind fun sp w₂ ⟨m₂, hw₂, hsome, hheld⟩ => ?_
    subst hw₂
    obtain ⟨sp, rfl⟩ := Option.isSome_iff_exists.mp hsome
    have hlive : own₁ cur = some .directory := by
      rw [hheld.frame.own cur fun hin => ?_, hold]
      rw [(hheld.before.isFree cur).mpr hin] at hold
      cases hold
    refine .after_ok (check_ok rfl ..) (.after_ok (modify_run ..) ?_)
    refine (mem_spec (freevm_frame hheld.owned hlive hheld.above')).bind fun _ w₃ ⟨m₃, hw₃, _⟩ => ?_
    subst hw₃
    exact .pure ⟨rfl, rfl⟩

theorem load_empty (path : List UInt8) (ip : Inode) (ph : List UInt8) (hlinked : Linked data)
    (h : Owned w.machine.mem l own) (hend : kernbase < w.machine.mem.kernelEnd)
    (hold : own (w.machine.procs p).pgdir = some .directory) (hmany : kernelTables + 4 ≤ l.length) (hbusy : w.busy = true)
    (href : w.ref ≠ 0) (hmagic : (Elfhdr.read elf).magic = elfMagic) (hnone : (Elfhdr.read elf).phnum = 0) :
    Ends (load data p path ip elf ph []) w (fun r w' => r = 0 ∧ w'.failed = w.failed) fun _ _ => False := by
  unfold load
  refine .after_ok (check_ok (decide_eq_true hmagic) ..) ?_
  rw [if_neg (not_not_intro hmagic), hnone]
  refine .after_ok (get_run w) ((mem_spec (setupkvm_spec hlinked h)).bind fun d w₁ ⟨m₁, hw₁, hends⟩ => ?_)
  subst hw₁
  cases hends with
  | full hl =>
    rw [hl] at hmany
    exact absurd hmany (by decide)
  | lost _ _ _ _ hfew _ _ _ => omega
  | made _ pages l₁ _ own₁ hne hsplit hin hlen howned hgrew hlive hfresh =>
    have hbuild := building_start h hend hsplit hin howned hgrew hlive hfresh
    have hrest : 3 ≤ l₁.length := by
      rw [hsplit, length_append] at hmany
      omega
    refine .after_ok (check_ok (decide_eq_true hne) ..) ?_
    rw [if_neg hne]
    refine .after_ok (show loadHeaders _ d ip 0 _ 0 ph _ = .ok (some 0) _ from rfl) ?_
    exact .congr (release_run (w := { w with machine.mem := m₁ }) hbusy href) (finish_empty
      (w := { w with machine.mem := m₁, busy := false, ref := w.ref - 1, ended := w.ended + 1 }) p path _ hbuild hold hrest)

end Empty

/-- What an earlier call may have left: an ELF header without program headers. -/
def remains : Locals where
  elf := [0x7F, 0x45, 0x4C, 0x46] ++ List.replicate 48 0
  ph := List.replicate 32 0
  elf_length := rfl
  ph_length := rfl

theorem exec_remains (path : List UInt8) {l : List Nat} {own : Nat → Option Owner} (hlinked : Linked data)
    (h : Owned w.machine.mem l own) (hend : kernbase < w.machine.mem.kernelEnd)
    (hold : own (w.machine.procs p).pgdir = some .directory) (hmany : kernelTables + 4 ≤ l.length)
    (hfree : w.busy = false) (hread : headerRead file w.input = some (-1, [])) :
    Ends (exec data p path file remains []) w (fun r w' => r = 0 ∧ w'.failed = w.failed ++ [.header]) fun _ _ => False := by
  obtain ⟨ip, rfl, hresult⟩ := Option.bind_eq_some_iff.mp hread
  refine .congr (exec_locked ip remains hfree) ?_
  obtain ⟨input, hrun⟩ := readi_run (w := { w with begun := w.begun + 1, ref := w.ref + 1, busy := true }) rfl
    (Nat.succ_ne_zero _) hresult
  refine .after_ok hrun (.after_ok (modify_run ..) ?_)
  dsimp only
  rw [if_neg (by decide)]
  exact load_empty (w := { w with begun := w.begun + 1, ref := w.ref + 1, busy := true, input := input, failed := w.failed ++ [.header] })
    path ip remains.ph hlinked h hend hold hmany rfl (Nat.succ_ne_zero _) (by decide) (by decide)

def idle (s : Machine) (input : List Line) : World := ⟨s, fun _ => ⟨0, 0, [], 0⟩, false, 0, 0, 0, input, []⟩

theorem booted_remains {s : Machine} {l : List Nat} {own : Nat → Option Owner} (h : Booted s l own)
    (hmany : 50000 ≤ l.length) (hread : headerRead file input = some (-1, [])) :
    Ends (exec 0x80109000 initproc [] file remains []) (idle s input) (fun r w' => r = 0 ∧ w'.failed = [.header])
      fun _ _ => False :=
  exec_remains (w := idle s input) [] (by decide) h.owned h.above h.shape.live (Nat.le_trans (by decide) hmany) rfl hread

/-! ### When exec is atomic -/

/-- A call that returns ends as it should; one whose header is short returns -1; and no call depends on what the stack
held. -/
structure Atomic (data : Nat) (p : Slot) (path : List UInt8) (file : Option Inode) (argv : List (List UInt8)) (w : World) :
    Prop where
  outcome : ∀ locals r w', exec data p path file locals argv w = .ok r w' → Outcome w r w'
  short : ∀ a, headerRead file w.input = some a → a.1 ≠ elfhdrSize → w.busy = false →
    ∀ locals, ∃ w', exec data p path file locals argv w = .ok (-1) w'
  independent : ∀ locals locals', exec data p path file locals argv w = exec data p path file locals' argv w

theorem exec_short (data : Nat) (p : Slot) (path : List UInt8) (locals : Locals)
    (argv : List (List UInt8)) (hread : headerRead file w.input = some a) (hneg : a.1 ≠ -1) (hshort : a.1 ≠ elfhdrSize)
    (hfree : w.busy = false) : ∃ w', exec data p path file locals argv w = .ok (-1) w' := by
  obtain ⟨ip, rfl, hresult⟩ := Option.bind_eq_some_iff.mp hread
  obtain ⟨input, hrun⟩ := readi_run (w := { w with begun := w.begun + 1, ref := w.ref + 1, busy := true }) rfl
    (Nat.succ_ne_zero _) hresult
  rw [exec_locked ip locals hfree, bind_ok _ hrun]
  dsimp only
  rw [if_pos ((short_iff hresult (by decide) hneg).mpr hshort), decide_eq_false hshort,
    bind_ok _ (show check false .header _ = .ok () _ from rfl)]
  exact ⟨_, bad_zero_run rfl (Nat.succ_ne_zero _)⟩

theorem exec_atomic_iff (file : Option Inode) (input : List Line)
    (hclean : ∀ bytes, headerRead file input = some (-1, bytes) → bytes = []) :
    (∀ data p path argv w, w.input = input → Atomic data p path file argv w) ↔
      ∀ bytes, headerRead file input ≠ some (-1, bytes) := by
  refine ⟨fun hall bytes hread => ?_, fun hread data p path argv w hinput => ?_⟩
  · obtain rfl := hclean bytes hread
    obtain ⟨s, l, own, -, hbooted, hmany⟩ := boot_ok
    have hatomic := hall 0x80109000 initproc [] [] (idle s input) rfl
    have hends := booted_remains hbooted hmany hread
    obtain ⟨r, w', hrun, rfl, hfailed⟩ := hends.exists_ok
    obtain ⟨-, hnone⟩ | ⟨hneg, -⟩ := (hatomic.outcome _ _ _ hrun).result
    · rw [hfailed] at hnone
      cases hnone
    · cases hneg
  · subst hinput
    refine ⟨fun locals r w' hrun => (exec_outcome data p path locals argv hread).of_ok hrun, fun a ha hne hfree locals => ?_,
      exec_independent data p path argv hread⟩
    exact exec_short data p path locals argv ha (fun hneg => hread a.2 (by rw [ha, ← hneg])) hne hfree

/-- An empty file has no header, and a call for it after the boot does nothing. -/
theorem exec_atomic_iff_empty : ∃ s, main 0x80109000 [] poweredOn = .ok () s ∧
    Atomic 0x80109000 initproc [] (some (.data ⟨[], by decide⟩)) [] (idle s []) := by
  have hread : headerRead (some (.data ⟨[], by decide⟩)) [] = some (0, []) := rfl
  obtain ⟨s, -, -, hboot, -⟩ := boot_ok
  refine ⟨s, hboot, (exec_atomic_iff _ [] fun bytes hbytes => ?_).mpr (fun bytes hbytes => ?_) _ _ _ _ _ rfl⟩
  all_goals
    rw [hread] at hbytes
    cases hbytes

def zeros : Locals := ⟨List.replicate 52 0, List.replicate 32 0, rfl, rfl⟩

/-- A device that cannot be read is run as a program if the stack holds an old header, and refused otherwise. -/
theorem exec_runs_device : ∃ s w' w'', main 0x80109000 [] poweredOn = .ok () s ∧
    headerRead (some (.device 5)) [] = some (-1, []) ∧
    exec 0x80109000 initproc [] (some (.device 5)) remains [] (idle s []) = .ok 0 w' ∧
    exec 0x80109000 initproc [] (some (.device 5)) zeros [] (idle s []) = .ok (-1) w'' := by
  obtain ⟨s, l, own, hboot, hbooted, hmany⟩ := boot_ok
  have hread : headerRead (some (.device 5)) [] = some (-1, []) := rfl
  obtain ⟨r, w', hrun, rfl, -⟩ := (booted_remains hbooted hmany hread).exists_ok
  have hrefused : ∃ w'', exec 0x80109000 initproc [] (some (.device 5)) zeros [] (idle s []) = .ok (-1) w'' := by
    rw [exec_locked _ _ rfl]
    exact ⟨_, bad_zero_run (w := { idle s [] with
      begun := 1, ref := 1, busy := true, failed := [.header, .magic] }) rfl Nat.one_ne_zero⟩
  obtain ⟨w'', hrefused⟩ := hrefused
  exact ⟨s, w', w'', hboot, hread, hrun, hrefused⟩

end RainOS.Program
