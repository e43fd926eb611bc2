import RainOS.Process.Atomic

/-!
# exec of a file

On a file, `exec` from any inode does to memory and to the process table what `Process.exec` does: the log, the inode,
the header variables and the history of steps have no influence on them.
-/

namespace RainOS.Program

open Kalloc Vm Process Function List

variable {α β : Type} {w w' : World} {f : File} {p : Slot} {data cur pgdir addr off sz n i : Nat}
  {path old elf ph : List UInt8} {argv : List (List UInt8)} {x g : E α} {y : X α}

/-- The part of a run that `Process.Code` models. -/
def forget {α : Type} : EStateM.Result Halt World α → EStateM.Result Halt Machine α
  | .ok a w => .ok a w.machine
  | .error e w => .error e w.machine

theorem forget_mem (x : Vm.M α) (w : World) : forget (mem x w) = lift x w.machine := by
  cases hx : x w.machine.mem <;> simp only [mem, lift, hx, forget]

theorem forget_bind {g : α → E β} {h : α → X β} (hx : forget (x w) = y w.machine)
    (hg : ∀ a w', x w = .ok a w' → forget (g a w') = h a w'.machine) : forget ((x >>= g) w) = (y >>= h) w.machine := by
  cases hrun : x w with
  | ok a w' =>
    rw [hrun] at hx
    rw [bind_ok _ hrun, bind_ok _ hx.symm]
    exact hg a w' hrun
  | error e w' =>
    rw [hrun] at hx
    rw [bind_error _ hrun, bind_error _ hx.symm]
    rfl

theorem forget_check {ok : Bool} {step : Step} (hg : ∀ w', Quiet w w' → forget (g w') = y w'.machine) : forget ((do check ok step; g) w) = y w.machine := by
  cases ok with
  | true => exact hg w ⟨rfl, rfl, rfl, rfl, rfl, rfl⟩
  | false => exact hg { w with failed := w.failed ++ [step] } ⟨rfl, rfl, rfl, rfl, rfl, rfl⟩

theorem forget_ite {c : Prop} [Decidable c] {g' : E α} {y' : X α} (hpos : c → forget (g w) = y w.machine)
    (hneg : ¬c → forget (g' w) = y' w.machine) : forget ((if c then g else g') w) = (if c then y else y') w.machine := by
  split
  · exact hpos ‹_›
  · exact hneg ‹_›

theorem readi_data (off n : Nat) (w : World) : readi (.data f) off n w =
    .ok ((Process.readi f off n).elim (-1, []) fun bytes => (bytes.length, bytes)) w := by
  unfold readi
  dsimp only
  cases Process.readi f off n <;> rfl

theorem forget_loadLoop (count i : Nat) :
    forget (loadLoop cur pgdir addr (.data f) off sz count i w) = Process.loadLoop cur pgdir addr f off sz count i w.machine := by
  induction count generalizing w i with
  | zero =>
    unfold loadLoop Process.loadLoop
    split <;> rfl
  | succ count ih =>
    unfold loadLoop Process.loadLoop
    refine forget_bind (forget_mem _ w) fun pte w₁ _ => ?_
    dsimp only
    refine forget_ite (fun _ => rfl) fun _ => ?_
    rw [bind_ok _ (get_run _), bind_ok _ (get_run _)]
    cases hread : Process.readi f ((off + i) % 2 ^ 32) (roundSize sz i) with
    | none =>
      rw [bind_ok (a := (-1, [])) _ (by rw [readi_data, hread]; rfl)]
      dsimp only
      rw [if_neg (not_not_intro rfl), bind_ok _ (show mem (memmove cur _ []) w₁ = .ok () w₁ from rfl), if_pos]
      · rfl
      · have hle := roundSize_le sz i
        simp only [pgsize] at hle
        omega
    | some bytes =>
      rw [bind_ok (a := ((bytes.length : Int), bytes)) _ (by rw [readi_data, hread]; rfl)]
      dsimp only
      have hfull : ((bytes.length : Int) % 2 ^ 32 ≠ roundSize sz i) = (bytes.length ≠ roundSize sz i) := by
        have hle := (readi_some hread).2.1
        have hle' := roundSize_le sz i
        simp only [pgsize] at hle'
        exact propext (not_congr (by omega))
      have hrest : ∀ w₂, forget ((do
          mem (memmove cur (p2v (pteAddr (w₁.machine.mem.word pte))) bytes)
          if (bytes.length : Int) % 2 ^ 32 ≠ roundSize sz i then return -1
          loadLoop cur pgdir addr (.data f) off sz count (i + pgsize)) w₂) = (do
          lift (memmove cur (p2v (pteAddr (w₁.machine.mem.word pte))) bytes)
          if bytes.length ≠ roundSize sz i then return -1
          Process.loadLoop cur pgdir addr f off sz count (i + pgsize)) w₂.machine := by
        intro w₂
        refine forget_bind (forget_mem _ w₂) fun _ w₃ _ => ?_
        simp only [hfull]
        exact forget_ite (fun _ => rfl) fun _ => ih _
      exact forget_ite (fun _ => hrest _) fun _ => hrest _

theorem forget_loaduvm : forget (loaduvm cur pgdir addr (.data f) off sz w) = Process.loaduvm cur pgdir addr f off sz w.machine := by
  unfold loaduvm Process.loaduvm
  exact forget_ite (fun _ => rfl) fun _ => forget_loadLoop _ _

theorem forget_loadHeaders (n : Nat) (hold : old.length = proghdrSize) :
    forget (loadHeaders cur pgdir (.data f) n off sz old w) = Process.loadHeaders cur pgdir f n off sz w.machine := by
  induction n generalizing w off sz old with
  | zero => rfl
  | succ n ih =>
    unfold loadHeaders Process.loadHeaders
    rw [bind_ok _ (readi_data ..)]
    cases hread : Process.readi f off proghdrSize with
    | none =>
      dsimp only [Option.elim]
      refine forget_check fun w' _ => ?_
      rw [if_pos (by decide)]
      rfl
    | some bytes =>
      dsimp only [Option.elim]
      have hle := (readi_some hread).2.1
      by_cases hlen : bytes.length ≠ proghdrSize
      · refine forget_check fun w' _ => ?_
        rw [if_pos (by simp only [proghdrSize] at hle hlen ⊢; omega), if_pos hlen]
        rfl
      · have hfull : bytes.length = proghdrSize := not_not.mp hlen
        have hfill : fill old bytes = bytes := by
          rw [fill, drop_of_length_le (by omega), append_nil]
        rw [hfill, if_neg hlen, if_neg (by rw [hfull]; decide)]
        refine forget_check fun w' _ => ?_
        refine forget_ite (fun _ => ih hfull) fun _ => forget_check fun w₁ _ => forget_ite (fun _ => rfl) fun _ => ?_
        refine forget_bind (forget_mem _ w₁) fun sz' w₂ _ => forget_check fun w₃ _ => forget_ite (fun _ => rfl) fun _ => ?_
        refine forget_bind forget_loaduvm fun r w₄ _ => forget_check fun w₅ _ => ?_
        exact forget_ite (fun _ => rfl) fun _ => ih hfull

theorem lift_map (g : α → β) (x : Vm.M α) : lift (g <$> x) = g <$> lift x := by
  funext s
  cases hx : x s.mem <;> simp [lift, hx]

theorem pushStack_isSome (cur pgdir sz : Nat) (argv : List (List UInt8)) :
    Process.pushStack cur pgdir sz argv = Option.isSome <$> pushStack cur pgdir sz argv := by
  unfold Process.pushStack pushStack
  rw [map_bind]
  congr 1
  funext _
  rw [map_bind]
  congr 1
  funext r
  cases r with
  | none => rfl
  | some r =>
    obtain ⟨sp, addrs⟩ := r
    dsimp only
    rw [map_bind]
    congr 1
    funext r
    split <;> rfl

theorem forget_bad_free (hne : pgdir ≠ 0) :
    forget (bad pgdir false w) = (do lift (freevm pgdir); return -1 : X Int) w.machine := by
  unfold bad
  simp only [Bool.false_eq_true, ↓reduceIte]
  rw [if_pos hne]
  exact forget_bind (forget_mem _ w) fun _ _ _ => rfl

theorem forget_bad_held (hne : pgdir ≠ 0) (hbusy : w.busy = true) (href : w.ref ≠ 0) :
    forget (bad pgdir true w) = (do lift (freevm pgdir); return -1 : X Int) w.machine := by
  unfold bad
  simp only [↓reduceIte]
  rw [if_pos hne]
  refine forget_bind (forget_mem _ w) fun _ w₁ hrun => ?_
  have h₁ := (mem_same _ w).of_ok hrun
  rw [release_run (h₁.busy.trans hbusy) (h₁.ref ▸ href)]
  rfl

/-- What `Process.exec` does with the image. -/
def conclude (p : Slot) (oldpgdir pgdir : Nat) : Option Nat → X Int
  | none => do
      lift (freevm pgdir)
      return -1
  | some sz => do
      setProc p fun q => { q with pgdir := pgdir, sz := sz }
      lift (freevm oldpgdir)
      return 0

theorem forget_finish (entry : Nat) (hne : pgdir ≠ 0) :
    forget (finish p path cur pgdir sz entry argv w) = (do
      let sz := pgroundup sz
      let sz ← lift (allocuvm pgdir sz ((sz + 2 * pgsize) % 2 ^ 32))
      if sz = 0 then conclude p cur pgdir none
      else if ← lift (Process.pushStack cur pgdir sz argv) then conclude p cur pgdir (some sz)
      else conclude p cur pgdir none) w.machine := by
  unfold finish
  refine forget_bind (forget_mem _ w) fun sz' w₁ _ => ?_
  refine forget_check fun w₂ _ => forget_ite (fun _ => forget_bad_free hne) fun _ => ?_
  rw [pushStack_isSome, lift_map, bind_map_left]
  refine forget_bind (forget_mem _ w₂) fun sp w₃ _ => ?_
  cases sp with
  | none => exact forget_check fun w₄ _ => forget_bad_free hne
  | some sp =>
    refine forget_check fun w₄ _ => ?_
    exact forget_bind (y := setProc p _) rfl fun _ w₅ _ => forget_bind (forget_mem _ w₅) fun _ _ _ => rfl

theorem forget_bad_zero (hbusy : w.busy = true) (href : w.ref ≠ 0) : forget (bad 0 true w) = .ok (-1) w.machine := by
  rw [bad_zero_run hbusy href]
  rfl

theorem forget_loadImage (hne : pgdir ≠ 0) (hbusy : w.busy = true) (href : w.ref ≠ 0) (hph : ph.length = proghdrSize) :
    forget ((do
      match ← loadHeaders cur pgdir (.data f) (Elfhdr.read elf).phnum (Elfhdr.read elf).phoff 0 ph with
      | none => bad pgdir true
      | some sz =>
        iunlockput
        endOp
        finish p path cur pgdir sz (field elf 4 24) argv) w) =
      (loadImage cur pgdir f (Elfhdr.read elf) argv >>= conclude p cur pgdir) w.machine := by
  unfold loadImage
  rw [bind_assoc]
  refine forget_bind (forget_loadHeaders _ hph) fun sz w₁ hrun => ?_
  have h₁ := (loadHeaders_ends _ hbusy href).of_ok hrun
  cases sz with
  | none =>
    have h₁ : Fails w w₁ := h₁
    exact forget_bad_held hne (h₁.busy.trans hbusy) (h₁.ref ▸ href)
  | some sz =>
    have h₁ : Same w w₁ := h₁
    dsimp only
    rw [release_run (h₁.busy.trans hbusy) (h₁.ref ▸ href), forget_finish _ hne, bind_assoc]
    refine bind_eq_bind fun sz' s' _ => ?_
    by_cases hsz : sz' = 0
    · rw [if_pos hsz, if_pos hsz]
      rfl
    · rw [if_neg hsz, if_neg hsz, bind_assoc]
      refine bind_eq_bind fun pushed s'' _ => ?_
      cases pushed <;> rfl

end RainOS.Program
