import Mathlib

/-!
# Total correctness of state-and-exception programs

`wp m Q s` says that the program `m`, started in `s`, returns normally and that
its result and final state satisfy `Q`. A program that throws satisfies no
postcondition, so a proof of `wp` is also a proof that nothing is thrown. The last
section is about states in which resources are counted.
-/

namespace StateWp

variable {σ τ ε α β γ : Type} {m : StateT σ (Except ε) α} {Q : α → σ → Prop}

def wp (m : StateT σ (Except ε) α) (Q : α → σ → Prop) (s : σ) : Prop :=
  match m s with
  | .ok (a, s') => Q a s'
  | .error _ => False

theorem wp_iff (m : StateT σ (Except ε) α) (Q : α → σ → Prop) (s : σ) :
    wp m Q s ↔ ∃ a s', m s = .ok (a, s') ∧ Q a s' := by
  unfold wp
  cases h : m s with
  | error e => simp
  | ok r => obtain ⟨a, s'⟩ := r; simp

theorem wp_of_eq {s s' : σ} {a : α} (h : m s = .ok (a, s')) (hq : Q a s') : wp m Q s :=
  (wp_iff m Q s).mpr ⟨a, s', h, hq⟩

/-- A postcondition may be weakened at the end of any proof. -/
theorem wp.mono {P Q : α → σ → Prop} {s : σ} (h : wp m P s) (hpq : ∀ a s', P a s' → Q a s') :
    wp m Q s := by
  obtain ⟨a, s', he, hp⟩ := (wp_iff m P s).mp h
  exact wp_of_eq he (hpq a s' hp)

theorem wp.post {s s' : σ} {a : α} (h : wp m Q s) (he : m s = .ok (a, s')) : Q a s' := by
  simpa [wp, he] using h

theorem wp.ne_error {s : σ} (h : wp m Q s) (e : ε) : m s ≠ .error e := by
  obtain ⟨a, s', he, -⟩ := (wp_iff m Q s).mp h
  simp [he]

/-- A program returns once, so two facts about it hold of the same result. -/
theorem wp.and {P Q : α → σ → Prop} {s : σ} (hp : wp m P s) (hq : wp m Q s) :
    wp m (fun a s' => P a s' ∧ Q a s') s := by
  obtain ⟨a, s', he, h⟩ := (wp_iff m P s).mp hp
  exact wp_of_eq he ⟨h, hq.post he⟩

@[simp] theorem wp_pure (a : α) (Q : α → σ → Prop) (s : σ) :
    wp (pure a : StateT σ (Except ε) α) Q s ↔ Q a s := Iff.rfl

@[simp] theorem wp_throw (e : ε) (Q : α → σ → Prop) (s : σ) :
    wp (throw e : StateT σ (Except ε) α) Q s ↔ False := Iff.rfl

/-- Sequencing: the second program starts where the first one stopped. -/
@[simp] theorem wp_bind (m : StateT σ (Except ε) α) (f : α → StateT σ (Except ε) β)
    (Q : β → σ → Prop) (s : σ) :
    wp (m >>= f) Q s ↔ wp m (fun a s' => wp (f a) Q s') s := by
  have hb : (m >>= f) s = match m s with
      | .ok (a, s') => f a s'
      | .error e => .error e := by
    change (StateT.bind m f) s = _
    unfold StateT.bind
    cases m s <;> rfl
  simp only [wp, hb]
  cases m s <;> rfl

@[simp] theorem wp_get (Q : σ → σ → Prop) (s : σ) :
    wp (get : StateT σ (Except ε) σ) Q s ↔ Q s s := Iff.rfl

@[simp] theorem wp_set (t : σ) (Q : PUnit → σ → Prop) (s : σ) :
    wp (set t : StateT σ (Except ε) PUnit) Q s ↔ Q ⟨⟩ t := Iff.rfl

@[simp] theorem wp_modify (f : σ → σ) (Q : PUnit → σ → Prop) (s : σ) :
    wp (modify f : StateT σ (Except ε) PUnit) Q s ↔ Q ⟨⟩ (f s) := Iff.rfl

/-- A loop over a list is verified by an invariant on what is left to do. -/
theorem wp_forM {f : γ → StateT σ (Except ε) PUnit} {Q : PUnit → σ → Prop}
    (I : List γ → σ → Prop)
    (hstep : ∀ x xs s, I (x :: xs) s → wp (f x) (fun _ s' => I xs s') s)
    (hend : ∀ s, I [] s → Q ⟨⟩ s) (l : List γ) (s : σ) (h : I l s) :
    wp (forM l f) Q s := by
  induction l generalizing s with
  | nil => exact hend s h
  | cons x xs ih =>
    rw [List.forM_cons, wp_bind]
    exact (hstep x xs s h).mono fun _ s' h' => ih s' h'

/-- Run a program on one part of a larger state. -/
def zoom (view : τ → σ) (put : σ → τ → τ) (m : StateT σ (Except ε) α) :
    StateT τ (Except ε) α := fun t =>
  match m (view t) with
  | .ok (a, s) => .ok (a, put s t)
  | .error e => .error e

@[simp] theorem wp_zoom (view : τ → σ) (put : σ → τ → τ) (m : StateT σ (Except ε) α)
    (Q : α → τ → Prop) (t : τ) :
    wp (zoom view put m) Q t ↔ wp m (fun a s => Q a (put s t)) (view t) := by
  unfold wp zoom
  cases m (view t) <;> rfl

attribute [irreducible] wp

/-! ## Sums over an updated state -/

section Sums

variable {ι β M : Type} [DecidableEq ι] [AddCommMonoid M]

/-- The share of an entry may depend on its index.  There is no subtraction, so the share of the
old entry is added on the other side. -/
theorem sum_update_at (s : Finset ι) (g : ι → β → M) (f : ι → β) (i : ι) (v : β) (hi : i ∈ s) :
    ∑ j ∈ s, g j (Function.update f i v j) + g i (f i) = ∑ j ∈ s, g j (f j) + g i v := by
  have hrest : ∑ j ∈ s.erase i, g j (Function.update f i v j) = ∑ j ∈ s.erase i, g j (f j) := by
    apply Finset.sum_congr rfl
    intro j hj
    rw [Function.update_of_ne (Finset.ne_of_mem_erase hj)]
  rw [← Finset.add_sum_erase s (fun j => g j (Function.update f i v j)) hi,
    ← Finset.add_sum_erase s (fun j => g j (f j)) hi, hrest, Function.update_self]
  abel

theorem sum_update (s : Finset ι) (g : β → M) (f : ι → β) (i : ι) (v : β) (hi : i ∈ s) :
    ∑ j ∈ s, g (Function.update f i v j) + g (f i) = ∑ j ∈ s, g (f j) + g v :=
  sum_update_at s (fun _ => g) f i v hi

end Sums

end StateWp
