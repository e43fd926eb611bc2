import RainOS.Lib.Hoare

/-!
# Triples under a guard

A condition on a whole run is often only known to have held once the run is over: it speaks of a ghost
history that grows with the run. `Triple I G E P x Q` reasons as if such a condition `G` held all along.
`x` keeps the invariant `I` in any case; its pre- and postcondition count only while `G` holds, and
when `G` holds after `x` it held before. Code that stops satisfies `I` too, and stops in a way `E`
allows.
-/

namespace RainOS

open List

variable {ε σ α β : Type} {ι : Sort*}

def Triple (I G : σ → Prop) (E : ε → Prop) (P : σ → Prop) (x : EStateM ε σ α) (Q : α → σ → Prop) :
    Prop :=
  ∀ s, I s → (G s → P s) →
    Ends x s (fun a s' => I s' ∧ (G s' → G s ∧ Q a s')) fun e s' => I s' ∧ E e

namespace Triple

variable {I G : σ → Prop} {E : ε → Prop} {P P' : σ → Prop} {x y : EStateM ε σ α} {f : α → EStateM ε σ β}
  {Q Q' : α → σ → Prop} {R : β → σ → Prop} {xs : List α} {a : α} {e : ε} {p c : Prop}

theorem mono (h : Triple I G E P' x Q') (hP : ∀ s, P s → P' s) (hQ : ∀ a s, Q' a s → Q a s) :
    Triple I G E P x Q := by
  intro s hI hG
  apply (h s hI fun hg => hP s (hG hg)).mono
  · intro a s' hend
    exact ⟨hend.1, fun hg => ⟨(hend.2 hg).1, hQ a s' (hend.2 hg).2⟩⟩
  · exact fun _ _ hend => hend

theorem pre (h : Triple I G E P' x Q) (hP : ∀ s, P s → P' s) : Triple I G E P x Q :=
  h.mono hP fun _ _ hQ => hQ

theorem post (h : Triple I G E P x Q') (hQ : ∀ a s, Q' a s → Q a s) : Triple I G E P x Q :=
  h.mono (fun _ hP => hP) hQ

theorem pure (h : ∀ s, P s → Q a s) : Triple I G E P (Pure.pure a) Q := by
  intro s hI hG
  exact .pure ⟨hI, fun hg => ⟨hg, h s (hG hg)⟩⟩

theorem skip {R : σ → Prop} : Triple I G E R (Pure.pure a) fun _ => R := pure fun _ hR => hR

theorem throw (h : E e) : Triple I G E P (throw e : EStateM ε σ α) Q := by
  intro s hI _
  exact .throw ⟨hI, h⟩

theorem throw_bind (h : E e) : Triple I G E P (MonadExcept.throw e >>= f) R := by
  intro s hI _
  exact .after_error rfl ⟨hI, h⟩

theorem get : Triple I G E P (get : EStateM ε σ σ) (fun a s => P s ∧ a = s) := by
  intro s hI hG
  exact .get ⟨hI, fun hg => ⟨hg, hG hg, rfl⟩⟩

theorem modify {g : σ → σ} {Q : PUnit → σ → Prop} (hI : ∀ s, I s → I (g s)) (hG : ∀ s, G (g s) → G s)
    (h : ∀ s, P s → Q ⟨⟩ (g s)) : Triple I G E P (modify g : EStateM ε σ PUnit) Q := by
  intro s hs hP
  exact .modify ⟨hI s hs, fun hg => ⟨hG s hg, h s (hP (hG s hg))⟩⟩

theorem bind (hx : Triple I G E P x Q) (hf : ∀ a, Triple I G E (Q a) (f a) R) :
    Triple I G E P (x >>= f) R := by
  intro s hI hG
  apply Ends.bind (hx s hI hG)
  intro a s' hs'
  apply (hf a s' hs'.1 fun hg => (hs'.2 hg).2).mono
  · intro b t ht
    exact ⟨ht.1, fun hg => ⟨(hs'.2 (ht.2 hg).1).1, (ht.2 hg).2⟩⟩
  · exact fun _ _ ht => ht

theorem result {R : σ → Prop} (h : Triple I G E P x fun _ => R) (b : β) :
    Triple I G E P (x >>= fun _ => Pure.pure b) fun _ => R :=
  h.bind fun _ => pure fun _ hR => hR

theorem map {k : α → β} (h : Triple I G E P x fun a => R (k a)) : Triple I G E P (k <$> x) R := by
  have hbind : k <$> x = x >>= fun a => Pure.pure (k a) := by
    funext s
    rw [map_run, bind_run]
    rfl
  rw [hbind]
  exact h.bind fun a => pure fun _ hR => hR

theorem discard {R : PUnit → σ → Prop} (h : Triple I G E P x fun _ => R ⟨⟩) :
    Triple I G E P (discard x) R := h.map

theorem frame (h : Triple I G E P x Q) :
    Triple I G E (fun s => p ∧ P s) x fun a s => p ∧ Q a s := by
  intro s hI hG
  apply (h s hI fun hg => (hG hg).2).mono
  · intro a s' hend
    refine ⟨hend.1, fun hg => ?_⟩
    obtain ⟨hg', hQ⟩ := hend.2 hg
    exact ⟨hg', (hG hg').1, hQ⟩
  · exact fun _ _ hend => hend

theorem of_false (h : Triple I G E P' x Q') (hP : ∀ s, ¬ P s) : Triple I G E P x Q :=
  (h.frame (p := False)).mono (fun s hs => absurd hs (hP s)) fun _ _ hs => hs.1.elim

theorem of_exists [Nonempty ι] {P : ι → σ → Prop} (h : ∀ i, Triple I G E (P i) x Q) :
    Triple I G E (fun s => ∃ i, P i s) x Q := by
  intro s hI hG
  by_cases hg : G s
  · obtain ⟨i, hi⟩ := hG hg
    exact h i s hI fun _ => hi
  · obtain ⟨i⟩ := ‹Nonempty ι›
    exact h i s hI fun hg' => absurd hg' hg

theorem ite [Decidable c] (hx : c → Triple I G E P x Q)
    (hy : ¬ c → Triple I G E P y Q) : Triple I G E P (if c then x else y) Q := by
  split
  · exact hx ‹_›
  · exact hy ‹_›

theorem forM {g : α → EStateM ε σ PUnit}
    (h : ∀ a ∈ xs, Triple I G E P (g a) fun _ => P) : Triple I G E P (xs.forM g) fun _ => P := by
  induction xs with
  | nil => exact pure fun _ hP => hP
  | cons a rest ih =>
    change Triple I G E P (g a >>= fun _ => rest.forM g) fun _ => P
    exact (h a mem_cons_self).bind fun _ => ih fun b hb => h b (mem_cons_of_mem a hb)

theorem mapM (h : ∀ a ∈ xs, Triple I G E P (f a) fun _ => P) :
    Triple I G E P (xs.mapM f) fun _ => P := by
  induction xs with
  | nil => exact pure fun _ hP => hP
  | cons a rest ih =>
    rw [mapM_cons]
    refine (h a mem_cons_self).bind fun _ => ?_
    exact (ih fun b hb => h b (mem_cons_of_mem a hb)).bind fun _ => pure fun _ hP => hP

/-- A loop over a list with its indices, under an invariant of how far it has come. -/
theorem forM_zipIdx {g : α × Nat → EStateM ε σ PUnit} (J : Nat → σ → Prop)
    (h : ∀ i a, xs[i]? = some a → Triple I G E (J i) (g (a, i)) fun _ => J (i + 1)) :
    Triple I G E (J 0) (xs.zipIdx.forM g) fun _ => J xs.length := by
  intro s₀ hI hG
  refine .forM_zipIdx (fun i s => I s ∧ (G s → G s₀ ∧ J i s)) ⟨hI, fun hg => ⟨hg, hG hg⟩⟩ fun i a s hget hs => ?_
  apply (h i a hget s hs.1 fun hg => (hs.2 hg).2).mono
  · intro _ t ht
    exact ⟨ht.1, fun hg => ⟨(hs.2 (ht.2 hg).1).1, (ht.2 hg).2⟩⟩
  · exact fun _ _ ht => ht

end Triple

end RainOS
