import Xv6Filesrv.Programs

/-!
# Programs that run alone

A relation says how the calls of a program may be answered and what the answers make of a state.
`Runs` are the finished runs of a program, `Ends` is total correctness (every run comes to an end,
and the end is as wanted), `Can` says that one run ends so, and `Makes` speaks of the calls alone,
whatever the answers.
-/

namespace ProgramRuns

open Programs Programs.Prog

variable {C : Type} {R : C → Type} {L α β σ : Type} {f : α → Prog C R β}
  {body : σ → Prog C R (σ ⊕ β)}

theorem bind_assoc {γ : Type} (p : Prog C R α) (f : α → Prog C R β) (g : β → Prog C R γ) :
    (p.bind f).bind g = p.bind fun a => (f a).bind g := by
  induction p with
  | ret a => rfl
  | call c k ih =>
    simp only [Prog.bind]
    congr 1
    funext r
    exact ih r f
  | loop body s k _ ih =>
    simp only [Prog.bind]
    congr 1
    funext b
    exact ih b f

theorem unroll_bind {γ : Type} (body : σ → Prog C R (σ ⊕ β)) (s : σ) (k : β → Prog C R α)
    (f : α → Prog C R γ) :
    (unroll body s k).bind f = unroll body s fun b => (k b).bind f := by
  unfold unroll
  rw [bind_assoc]
  congr 1
  funext x
  cases x <;> rfl

/-- Every run of the program from `l` comes to an end, with a result and a state in `Q`, and on the
way no call is left without an answer. -/
inductive Ends (after : L → (c : C) → R c → L → Prop) (Q : α → L → Prop) :
    Prog C R α → L → Prop
  | ret {a : α} {l : L} (h : Q a l) : Ends after Q (.ret a) l
  | call {c : C} {k : R c → Prog C R α} {l : L} (hex : ∃ r l', after l c r l')
      (h : ∀ r l', after l c r l' → Ends after Q (k r) l') : Ends after Q (.call c k) l
  | loop {σ β : Type} {body : σ → Prog C R (σ ⊕ β)} {s : σ} {k : β → Prog C R α} {l : L}
      (h : Ends after Q (unroll body s k) l) : Ends after Q (.loop body s k) l

/-- A finished run. -/
inductive Runs (after : L → (c : C) → R c → L → Prop) : Prog C R α → L → α → L → Prop
  | ret {a : α} {l : L} : Runs after (.ret a) l a l
  | call {c : C} {k : R c → Prog C R α} {r : R c} {l l' l'' : L} {a : α} (hr : after l c r l')
      (h : Runs after (k r) l' a l'') : Runs after (.call c k) l a l''
  | loop {σ β : Type} {body : σ → Prog C R (σ ⊕ β)} {s : σ} {k : β → Prog C R α} {l l' : L} {a : α}
      (h : Runs after (unroll body s k) l a l') : Runs after (.loop body s k) l a l'

/-- A run up to some point, with what the program has still to do there. -/
inductive Reaches (after : L → (c : C) → R c → L → Prop) :
    Prog C R α → L → Prog C R α → L → Prop
  | start {p : Prog C R α} {l : L} : Reaches after p l p l
  | call {c : C} {k : R c → Prog C R α} {q : Prog C R α} {r : R c} {l l' l'' : L}
      (hr : after l c r l') (h : Reaches after (k r) l' q l'') : Reaches after (.call c k) l q l''
  | loop {σ β : Type} {body : σ → Prog C R (σ ⊕ β)} {s : σ} {k : β → Prog C R α} {q : Prog C R α}
      {l l' : L} (h : Reaches after (unroll body s k) l q l') :
      Reaches after (.loop body s k) l q l'

variable {after : L → (c : C) → R c → L → Prop} {p q : Prog C R α} {P Q : α → L → Prop} {l l' : L}
  {a : α}

/-! ## Total correctness -/

theorem Ends.mono (h : Ends after P p l) (hpq : ∀ a l', P a l' → Q a l') : Ends after Q p l := by
  induction h with
  | ret h => exact .ret (hpq _ _ h)
  | call hex _ ih => exact .call hex ih
  | loop _ ih => exact .loop ih

/-- Fewer answers, but still one for every call that had some. -/
theorem Ends.restrict {after' : L → (c : C) → R c → L → Prop} (h : Ends after Q p l)
    (hsub : ∀ l c r l', after' l c r l' → after l c r l')
    (hex : ∀ l c, (∃ r l', after l c r l') → ∃ r l', after' l c r l') : Ends after' Q p l := by
  induction h with
  | ret h => exact .ret h
  | call hsome _ ih => exact .call (hex _ _ hsome) fun r l' hr => ih r l' (hsub _ _ _ _ hr)
  | loop _ ih => exact .loop ih

theorem Ends.bind_prog {Q : β → L → Prop} (h : Ends after (fun a => Ends after Q (f a)) p l) :
    Ends after Q (p.bind f) l := by
  induction h with
  | ret h => exact h
  | call hex _ ih => exact .call hex ih
  | loop _ ih =>
    rw [unroll_bind] at ih
    exact .loop ih

theorem Ends.bind {Q : β → L → Prop} (h : Ends after (fun a => Ends after Q (f a)) p l) :
    Ends after Q (p >>= f) l :=
  h.bind_prog

theorem Ends.pure (h : Q a l) : Ends after Q (pure a : Prog C R α) l := .ret h

/-- A call that has an answer ends, and the caller has to be content with any. -/
theorem Ends.perform {c : C} {Q : R c → L → Prop} (hex : ∃ r l', after l c r l')
    (h : ∀ r l', after l c r l' → Q r l') : Ends after Q (perform c) l :=
  .call hex fun r l' hr => .ret (h r l' hr)

/-- A loop ends if every round lowers a measure. -/
theorem Ends.iterate {s : σ} {Q : β → L → Prop} (I : σ → L → Prop) (μ : σ → L → Nat) (hI : I s l)
    (hbody : ∀ s l, I s l →
      Ends after (Sum.elim (fun s' l' => I s' l' ∧ μ s' l' < μ s l) Q) (body s) l) :
    Ends after Q (Prog.iterate body s) l := by
  induction hn : μ s l using Nat.strongRecOn generalizing s l with
  | _ n ih =>
    apply Ends.loop
    apply Ends.bind_prog
    refine (hbody s l hI).mono fun x l' hx => ?_
    cases x with
    | inl s' => exact ih _ (hn ▸ hx.2) hx.1 rfl
    | inr b => exact .ret hx

/-! ## Calls on the way -/

/-- Every call that some run of the program makes is allowed. -/
def Within (after : L → (c : C) → R c → L → Prop) (allowed : C → Prop) (p : Prog C R α) (l : L) :
    Prop :=
  ∀ c k l', Reaches after p l (.call c k) l' → allowed c

/-- Only calls that are allowed are answered. -/
def Guarded (allowed : C → Prop) (after : L → (c : C) → R c → L → Prop) (l : L) (c : C) (r : R c)
    (l' : L) : Prop :=
  allowed c ∧ after l c r l'

/-- A program that never asks for what is not allowed does not need the guard. -/
theorem Ends.unguarded {allowed : C → Prop} (h : Ends (Guarded allowed after) Q p l) :
    Ends after Q p l := by
  induction h with
  | ret h => exact .ret h
  | call hex _ ih =>
    obtain ⟨r, l', hc, hr⟩ := hex
    exact .call ⟨r, l', hr⟩ fun r' l' hr' => ih r' l' ⟨hc, hr'⟩
  | loop _ ih => exact .loop ih

theorem Ends.within {allowed : C → Prop} (h : Ends (Guarded allowed after) Q p l) :
    Within after allowed p l := by
  intro c k l' hr
  generalize hq : Prog.call c k = q at hr
  induction hr with
  | start =>
    subst hq
    cases h with
    | call hex _ =>
      obtain ⟨_, _, hc, _⟩ := hex
      exact hc
  | call hx _ ih =>
    cases h with
    | call hex h =>
      obtain ⟨_, _, hc, _⟩ := hex
      exact ih (h _ _ ⟨hc, hx⟩) hq
  | loop _ ih =>
    cases h with
    | loop h => exact ih h hq

/-! ## Finished runs -/

/-- What a program ends with holds after each of its runs. -/
theorem Ends.of_runs (h : Ends after Q p l) (hr : Runs after p l a l') : Q a l' := by
  induction hr with
  | ret =>
    cases h with
    | ret h => exact h
  | call hx _ ih =>
    cases h with
    | call _ h => exact ih (h _ _ hx)
  | loop _ ih =>
    cases h with
    | loop h => exact ih h

/-- A program that ends has a run. -/
theorem Ends.exists_runs (h : Ends after Q p l) : ∃ a l', Runs after p l a l' ∧ Q a l' := by
  induction h with
  | ret h => exact ⟨_, _, .ret, h⟩
  | call hex _ ih =>
    obtain ⟨r, l₁, hr⟩ := hex
    obtain ⟨a, l', hrun, hq⟩ := ih r l₁ hr
    exact ⟨a, l', .call hr hrun, hq⟩
  | loop _ ih =>
    obtain ⟨a, l', hrun, hq⟩ := ih
    exact ⟨a, l', .loop hrun, hq⟩

theorem Runs.bind {b : β} {l'' : L} (hr : Runs after p l a l') (hf : Runs after (f a) l' b l'') :
    Runs after (p >>= f) l b l'' := by
  change Runs after (p.bind f) l b l''
  induction hr with
  | ret => exact hf
  | call hx _ ih => exact .call hx (ih hf)
  | loop _ ih =>
    have hround := ih hf
    rw [unroll_bind] at hround
    exact .loop hround

theorem Runs.mono {after' : L → (c : C) → R c → L → Prop} (hr : Runs after p l a l')
    (h : ∀ l c r l', after l c r l' → after' l c r l') : Runs after' p l a l' := by
  induction hr with
  | ret => exact .ret
  | call hx _ ih => exact .call (h _ _ _ _ hx) ih
  | loop _ ih => exact .loop ih

theorem Runs.reaches (hr : Runs after p l a l') : Reaches after p l (.ret a) l' := by
  induction hr with
  | ret => exact .start
  | call hx _ ih => exact .call hx ih
  | loop _ ih => exact .loop ih

/-- Some run of the program ends in `Q`. -/
def Can (after : L → (c : C) → R c → L → Prop) (Q : α → L → Prop) (p : Prog C R α) (l : L) : Prop :=
  ∃ a l', Runs after p l a l' ∧ Q a l'

theorem Can.mono (h : Can after P p l) (hpq : ∀ a l', P a l' → Q a l') : Can after Q p l := by
  obtain ⟨a, l', hr, hp⟩ := h
  exact ⟨a, l', hr, hpq a l' hp⟩

theorem Can.bind {Q : β → L → Prop} (h : Can after (fun a => Can after Q (f a)) p l) :
    Can after Q (p >>= f) l := by
  obtain ⟨a, l₁, hr, b, l₂, hf, hq⟩ := h
  exact ⟨b, l₂, hr.bind hf, hq⟩

theorem Can.pure (h : Q a l) : Can after Q (pure a : Prog C R α) l := ⟨a, l, .ret, h⟩

theorem Can.perform {c : C} {r : R c} {Q : R c → L → Prop} (hr : after l c r l') (h : Q r l') :
    Can after Q (perform c) l :=
  ⟨r, l', .call hr .ret, h⟩

theorem Can.iterate {s : σ} {Q : β → L → Prop}
    (h : Can after (Sum.elim (fun s' => Can after Q (iterate body s')) Q) (body s) l) :
    Can after Q (iterate body s) l := by
  obtain ⟨x, l₁, hr, hx⟩ := h
  cases x with
  | inl s' =>
    obtain ⟨b, l₂, hr', hq⟩ := hx
    exact ⟨b, l₂, .loop (hr.bind hr'), hq⟩
  | inr b => exact ⟨b, l₁, .loop (hr.bind .ret), hx⟩

/-- The run in which calls are answered by a function, for at most `n` steps. -/
def follow (answer : L → (c : C) → Option (R c × L)) : {α : Type} → Nat → Prog C R α → L →
    Option (α × L)
  | _, 0, _, _ => none
  | _, _ + 1, .ret a, l => some (a, l)
  | _, n + 1, .call c k, l => (answer l c).bind fun x => follow answer n (k x.1) x.2
  | _, n + 1, .loop body s k, l => follow answer n (unroll body s k) l

/-- A run can be computed by choosing the answers. -/
theorem Runs.of_follow {answer : L → (c : C) → Option (R c × L)} {n : Nat}
    (hanswer : ∀ l c r l', answer l c = some (r, l') → after l c r l')
    (h : follow answer n p l = some (a, l')) : Runs after p l a l' := by
  induction n generalizing p l with
  | zero => cases h
  | succ n ih =>
    cases p with
    | ret b =>
      cases h
      exact .ret
    | call c k =>
      obtain ⟨⟨r, l₁⟩, hr, hrest⟩ := Option.bind_eq_some_iff.mp h
      exact .call (hanswer l c r l₁ hr) (ih hrest)
    | loop body s k => exact .loop (ih h)

/-! ## The calls alone -/

/-- Every call that the program can make is allowed, as long as the answers are possible ones. -/
def Makes (allowed : C → Prop) (possible : (c : C) → R c → Prop) : {α : Type} → Prog C R α → Prop
  | _, .ret _ => True
  | _, .call c k => allowed c ∧ ∀ r, possible c r → Makes allowed possible (k r)
  | _, .loop body _ k =>
    (∀ s, Makes allowed possible (body s)) ∧ ∀ b, Makes allowed possible (k b)

variable {allowed : C → Prop} {possible : (c : C) → R c → Prop}

theorem Makes.weaken {allowed' : C → Prop} {possible' : (c : C) → R c → Prop}
    (h : Makes allowed possible p) (ha : ∀ c, allowed c → allowed' c)
    (hp : ∀ c r, possible' c r → possible c r) : Makes allowed' possible' p := by
  induction p with
  | ret a => trivial
  | call c k ih => exact ⟨ha c h.1, fun r hr => ih r (h.2 r (hp c r hr))⟩
  | loop body s k ihbody ih => exact ⟨fun s => ihbody s (h.1 s), fun b => ih b (h.2 b)⟩

theorem Makes.mono {allowed' : C → Prop} (h : Makes allowed possible p)
    (ha : ∀ c, allowed c → allowed' c) : Makes allowed' possible p :=
  h.weaken ha fun _ _ hr => hr

theorem Makes.bind_prog (h : Makes allowed possible p) (hf : ∀ a, Makes allowed possible (f a)) :
    Makes allowed possible (p.bind f) := by
  induction p with
  | ret a => exact hf a
  | call c k ih => exact ⟨h.1, fun r hr => ih r (h.2 r hr) hf⟩
  | loop body s k _ ih => exact ⟨h.1, fun b => ih b (h.2 b) hf⟩

theorem Makes.bind (h : Makes allowed possible p) (hf : ∀ a, Makes allowed possible (f a)) :
    Makes allowed possible (p >>= f) :=
  h.bind_prog hf

theorem Makes.pure : Makes allowed possible (pure a : Prog C R α) := trivial

theorem Makes.perform {c : C} (h : allowed c) : Makes allowed possible (perform c) :=
  ⟨h, fun _ _ => trivial⟩

theorem Makes.iterate {s : σ} (h : ∀ s, Makes allowed possible (body s)) :
    Makes allowed possible (Prog.iterate body s) :=
  ⟨h, fun _ => trivial⟩

theorem Makes.unroll {s : σ} {k : β → Prog C R α} (h : Makes allowed possible (.loop body s k)) :
    Makes allowed possible (unroll body s k) := by
  refine Makes.bind_prog (h.1 s) fun x => ?_
  cases x with
  | inl s' => exact h
  | inr b => exact h.2 b

theorem Makes.of_bind_prog (h : Makes allowed possible (p.bind f)) :
    Makes allowed possible p := by
  induction p with
  | ret a => trivial
  | call c k ih => exact ⟨h.1, fun r hr => ih r (h.2 r hr)⟩
  | loop body s k _ ih => exact ⟨h.1, fun b => ih b (h.2 b)⟩

/-- What allowed calls preserve holds at every point of a run. -/
theorem Reaches.invariant {I : L → Prop} (hr : Reaches after p l q l')
    (hp : Makes allowed possible p)
    (hstep : ∀ l c r l', I l → allowed c → after l c r l' → possible c r ∧ I l') (hl : I l) :
    Makes allowed possible q ∧ I l' := by
  induction hr with
  | start => exact ⟨hp, hl⟩
  | call hx _ ih =>
    obtain ⟨hposs, hl'⟩ := hstep _ _ _ _ hl hp.1 hx
    exact ih (hp.2 _ hposs) hl'
  | loop _ ih => exact ih hp.unroll hl

/-- A program that keeps to rules ends as the rules say, if what the rules know fits the state. -/
theorem Runs.follows {K : Type} {rules : Rules C R K} {J : L → K → Prop} {k : K}
    {Q : α → K → Prop} (hr : Runs after p l a l') (hp : wp rules p Q k)
    (hstep : ∀ l k c r l', J l k → rules.allowed k c → after l c r l' →
      ∃ k', rules.after k c r k' ∧ J l' k') (hl : J l k) : ∃ k', Q a k' ∧ J l' k' := by
  induction hr generalizing k with
  | ret => exact ⟨k, hp, hl⟩
  | call hx _ ih =>
    obtain ⟨k', hk', hl'⟩ := hstep _ _ _ _ _ hl hp.1 hx
    exact ih (hp.2 _ k' hk') hl'
  | loop _ ih => exact ih (wp_unroll hp) hl

end ProgramRuns
