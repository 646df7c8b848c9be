import Xv6Filesrv.StateWp

/-!
# What programs leave alone

`Keeps R m` says that whenever the program `m` returns, the state it started in and the state it
ends in are related by `R`.  A relation that is reflexive and transitive is kept by a program if it
is kept by the operations the program is made of, whatever order they come in.
-/

namespace StateFrame

open StateWp

variable {σ ε α β γ : Type} {R : σ → σ → Prop} {m : StateT σ (Except ε) α}
  {f : α → StateT σ (Except ε) β}

def Keeps (R : σ → σ → Prop) (m : StateT σ (Except ε) α) : Prop :=
  ∀ s a s', m s = .ok (a, s') → R s s'

/-- A sequence that returns has a state in the middle. -/
theorem bind_ok {s s' : σ} {b : β} (h : (m >>= f) s = .ok (b, s')) :
    ∃ a t, m s = .ok (a, t) ∧ f a t = .ok (b, s') := by
  have hw : wp (m >>= f) (fun x t => x = b ∧ t = s') s := wp_of_eq h ⟨rfl, rfl⟩
  rw [wp_bind, wp_iff] at hw
  obtain ⟨a, t, hm, hf⟩ := hw
  obtain ⟨x, t', hx, rfl, rfl⟩ := (wp_iff _ _ _).mp hf
  exact ⟨a, t, hm, hx⟩

theorem bind_of_ok {s t : σ} {a : α} (h : m s = .ok (a, t)) : (m >>= f) s = f a t := by
  change (StateT.bind m f) s = f a t
  unfold StateT.bind
  rw [h]
  rfl

/-- A sequence fails in its first part, or in its second part after the first. -/
theorem bind_error {s : σ} {e : ε} (h : (m >>= f) s = .error e) :
    m s = .error e ∨ ∃ a t, m s = .ok (a, t) ∧ f a t = .error e := by
  change (StateT.bind m f) s = .error e at h
  unfold StateT.bind at h
  cases hm : m s with
  | error e' =>
    rw [hm] at h
    obtain rfl : e' = e := Except.error.inj h
    exact .inl rfl
  | ok r =>
    rw [hm] at h
    exact .inr ⟨r.1, r.2, rfl, h⟩

/-- A failing program reaches no final state. -/
theorem keeps_throw (e : ε) : Keeps R (throw e : StateT σ (Except ε) α) := by
  intro s b s' h
  cases h

theorem keeps_modify {f : σ → σ} (h : ∀ s, R s (f s)) :
    Keeps R (modify f : StateT σ (Except ε) PUnit) := by
  intro s b s' he
  cases he
  exact h s

/-- Sequences, by transitivity. -/
theorem keeps_bind [IsTrans σ R] (hm : Keeps R m) (hf : ∀ a, Keeps R (f a)) :
    Keeps R (m >>= f) := by
  intro s b s' h
  obtain ⟨a, t, hma, hfa⟩ := bind_ok h
  exact trans_of R (hm s a t hma) (hf a t b s' hfa)

section refl

variable [Std.Refl R]

theorem keeps_pure (a : α) : Keeps R (pure a : StateT σ (Except ε) α) := by
  intro s b s' h
  cases h
  exact refl_of R s

theorem keeps_get : Keeps R (get : StateT σ (Except ε) σ) := by
  intro s b s' h
  cases h
  exact refl_of R s

/-- Loops over a list. -/
theorem keeps_forM [IsTrans σ R] {f : γ → StateT σ (Except ε) PUnit} (hf : ∀ x, Keeps R (f x))
    (l : List γ) : Keeps R (forM l f) := by
  induction l with
  | nil => exact keeps_pure _
  | cons x l ih =>
    rw [List.forM_cons]
    exact keeps_bind (hf x) fun _ => ih

end refl

end StateFrame
