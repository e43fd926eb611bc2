import Mathlib.Data.List.Basic

/-!
# Postconditions of stateful code

Code that changes a state and may stop early is an `EStateM` computation. `Ends x s Q E` says how `x`
ends when it is started in `s`: with a result and a state in `Q`, or stopped with a state in `E`.
The rules follow the code: one for each way a computation is put together, and one for a loop over
a list, whose invariant speaks of the part of the list that is done.
-/

namespace RainOS

open List

variable {ε σ α β : Type}

section Run

variable (s s' : σ) (e : ε) (a : α) (g : σ → σ) (x : EStateM ε σ α) (f : α → EStateM ε σ β)

@[simp] theorem pure_run : (pure a : EStateM ε σ α) s = .ok a s := rfl

@[simp] theorem throw_run : (throw e : EStateM ε σ α) s = .error e s := rfl

@[simp] theorem get_run : (get : EStateM ε σ σ) s = .ok s s := rfl

@[simp] theorem set_run : (set s' : EStateM ε σ PUnit) s = .ok ⟨⟩ s' := rfl

@[simp] theorem modify_run : (modify g : EStateM ε σ PUnit) s = .ok ⟨⟩ (g s) := rfl

@[simp] theorem bind_run : (x >>= f) s =
    match x s with
    | .ok a s' => f a s'
    | .error e s' => .error e s' := rfl

@[simp] theorem map_run (k : α → β) : (k <$> x) s =
    match x s with
    | .ok a s' => .ok (k a) s'
    | .error e s' => .error e s' := rfl

variable {s s' e a x}

theorem bind_ok (h : x s = .ok a s') : (x >>= f) s = f a s' := by
  rw [bind_run, h]

theorem bind_error (h : x s = .error e s') : (x >>= f) s = .error e s' := by
  rw [bind_run, h]

theorem bind_eq_of_run {y : EStateM ε σ α} (h : x s = y s) : (x >>= f) s = (y >>= f) s := by
  rw [bind_run, bind_run, h]

/-- Code that goes on in the same way from every result. -/
theorem bind_eq_bind {f g : α → EStateM ε σ β} (h : ∀ a s', x s = .ok a s' → f a s' = g a s') :
    (x >>= f) s = (x >>= g) s := by
  simp only [bind_run]
  split
  · rename_i a s' hx
    exact h a s' hx
  · rfl

end Run

@[irreducible] def Ends (x : EStateM ε σ α) (s : σ) (Q : α → σ → Prop) (E : ε → σ → Prop) : Prop :=
  match x s with
  | .ok a s' => Q a s'
  | .error e s' => E e s'

namespace Ends

variable {x y : EStateM ε σ α} {f : α → EStateM ε σ β} {s s' s₁ : σ} {Q R : α → σ → Prop} {Q' : β → σ → Prop}
  {E E' : ε → σ → Prop} {a : α} {e : ε} {xs : List α}

theorem of_ok (h : Ends x s Q E) (hx : x s = .ok a s') : Q a s' := by
  unfold Ends at h
  rwa [hx] at h

theorem of_error (h : Ends x s Q E) (hx : x s = .error e s') : E e s' := by
  unfold Ends at h
  rwa [hx] at h

theorem exists_ok (h : Ends x s Q fun _ _ => False) : ∃ a s', x s = .ok a s' ∧ Q a s' := by
  unfold Ends at h
  split at h
  · rename_i a s' hx
    exact ⟨a, s', hx, h⟩
  · exact h.elim

theorem mono (h : Ends x s R E') (hQ : ∀ a s', R a s' → Q a s') (hE : ∀ e s', E' e s' → E e s') :
    Ends x s Q E := by
  unfold Ends at h ⊢
  split at h
  · exact hQ _ _ h
  · exact hE _ _ h

theorem post (h : Ends x s R E) (hQ : ∀ a s', R a s' → Q a s') : Ends x s Q E := h.mono hQ fun _ _ he => he

theorem stop (h : Ends x s Q E') (hE : ∀ e s', E' e s' → E e s') : Ends x s Q E := h.mono (fun _ _ hQ => hQ) hE

theorem always : Ends x s (fun _ _ => True) fun _ _ => True := by
  unfold Ends
  split <;> trivial

theorem and (h : Ends x s Q E) (h' : Ends x s R E') :
    Ends x s (fun a s' => Q a s' ∧ R a s') E := by
  unfold Ends at h h' ⊢
  split at h
  · rename_i a s' hx
    rw [hx] at h'
    exact ⟨h, h'⟩
  · exact h

theorem congr (hx : x s = y s₁) (h : Ends y s₁ Q E) : Ends x s Q E := by
  unfold Ends at h ⊢
  rwa [hx]

theorem returns (h : Ends x s Q fun _ _ => False) : Ends x s Q E :=
  h.stop fun _ _ hf => hf.elim

theorem of_run_ok (hx : x s = .ok a s') (h : Q a s') : Ends x s Q E := by
  unfold Ends
  rwa [hx]

theorem of_run_error (hx : x s = .error e s') (h : E e s') : Ends x s Q E := by
  unfold Ends
  rwa [hx]

theorem pure (h : Q a s) : Ends (Pure.pure a) s Q E := of_run_ok rfl h

theorem throw (h : E e s) : Ends (throw e : EStateM ε σ α) s Q E :=
  of_run_error rfl h

theorem get {Q : σ → σ → Prop} (h : Q s s) : Ends (get : EStateM ε σ σ) s Q E :=
  of_run_ok rfl h

theorem modify {Q : PUnit → σ → Prop} {g : σ → σ} (h : Q ⟨⟩ (g s)) :
    Ends (modify g : EStateM ε σ PUnit) s Q E := of_run_ok rfl h

theorem bind (hx : Ends x s R E) (hf : ∀ a s', R a s' → Ends (f a) s' Q' E) :
    Ends (x >>= f) s Q' E := by
  unfold Ends at hx
  split at hx
  · rename_i a s' heq
    have hend := hf a s' hx
    unfold Ends at hend ⊢
    rwa [bind_ok f heq]
  · rename_i e s' heq
    exact of_run_error (bind_error f heq) hx

theorem after_ok (hx : x s = .ok a s') (hf : Ends (f a) s' Q' E) :
    Ends (x >>= f) s Q' E := by
  unfold Ends at hf ⊢
  rwa [bind_ok f hx]

theorem after_error (hx : x s = .error e s') (he : E e s') :
    Ends (x >>= f) s Q' E :=
  of_run_error (bind_error f hx) he

theorem ite {c : Prop} [Decidable c] (hx : c → Ends x s Q E) (hy : ¬c → Ends y s Q E) :
    Ends (if c then x else y) s Q E := by
  split
  · exact hx ‹_›
  · exact hy ‹_›

/-- A loop over a list, under an invariant of the part that is done. -/
theorem forM {g : α → EStateM ε σ PUnit} (I : List α → σ → Prop) (h : I [] s)
    (hstep : ∀ done a rest s, xs = done ++ a :: rest → I done s → Ends (g a) s (fun _ => I (done ++ [a])) E) :
    Ends (xs.forM g) s (fun _ => I xs) E := by
  suffices hrest : ∀ todo done s, xs = done ++ todo → I done s →
      Ends (todo.forM g) s (fun _ => I xs) E from hrest xs [] s rfl h
  intro todo
  induction todo with
  | nil =>
    intro done s hxs hs
    rw [append_nil] at hxs
    exact of_run_ok rfl (hxs ▸ hs)
  | cons a rest ih =>
    intro done s hxs hs
    change Ends (g a >>= fun _ => rest.forM g) s (fun _ => I xs) E
    apply bind (hstep done a rest s hxs hs)
    intro _ s' hs'
    exact ih (done ++ [a]) s' (by simpa using hxs) hs'

/-- A loop over the numbers below a bound. -/
theorem forM_range {n : Nat} {g : Nat → EStateM ε σ PUnit} (I : Nat → σ → Prop) (h : I 0 s)
    (hstep : ∀ i < n, ∀ s, I i s → Ends (g i) s (fun _ => I (i + 1)) E) :
    Ends ((range n).forM g) s (fun _ => I n) E := by
  refine (forM (fun done => I done.length) h fun done i rest s hxs hs => ?_).mono (fun _ s' hI => ?_) fun _ _ he => he
  · have hi : (range n)[done.length]? = some i := by simp [hxs]
    obtain ⟨hlt, rfl⟩ := List.getElem?_eq_some_iff.mp hi
    rw [length_range] at hlt
    rw [getElem_range, length_append]
    exact hstep _ hlt s hs
  · rwa [length_range] at hI

/-- A loop over a list with its indices, under an invariant of how far it has come. -/
theorem forM_zipIdx {g : α × Nat → EStateM ε σ PUnit} (I : Nat → σ → Prop)
    (h : I 0 s) (hstep : ∀ i a s, xs[i]? = some a → I i s → Ends (g (a, i)) s (fun _ => I (i + 1)) E) :
    Ends (xs.zipIdx.forM g) s (fun _ => I xs.length) E := by
  rw [← length_zipIdx (l := xs) (i := 0)]
  refine forM (fun done => I done.length) h fun done a rest s hxs hs => ?_
  have hget : xs.zipIdx[done.length]? = some a := by simp [hxs]
  rw [getElem?_zipIdx, Nat.zero_add] at hget
  obtain ⟨b, hb, rfl⟩ := Option.map_eq_some_iff.mp hget
  rw [length_append]
  exact hstep _ b s hb hs

end Ends

/-- The state code leaves, whichever way it ends. -/
@[irreducible] def leaves (x : EStateM ε σ α) (s : σ) : σ :=
  match x s with
  | .ok _ s' => s'
  | .error _ s' => s'

theorem Ends.leaves {x : EStateM ε σ α} {s : σ} {P : σ → Prop}
    (h : Ends x s (fun _ => P) fun _ => P) : P (leaves x s) := by
  unfold Ends at h
  unfold RainOS.leaves
  split at h <;> exact h

end RainOS
