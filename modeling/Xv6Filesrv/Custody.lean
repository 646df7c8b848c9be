import Mathlib.Data.Fintype.Basic
import Mathlib.Logic.Function.Basic

/-!
# Tasks that are stopped and what they hold

Tasks take and give back resources, one holder at a time, and pass through sections that many of
them may be in at once.  A task may also be stopped from outside; the moves it makes after that are
its own affair.  `Step careful` says when a move is made with care: a task is stopped while it
carries nothing, and a stopped task takes nothing on.  With such moves nothing is ever in the hands
of a stopped task.  Without them it stays there for as long as the task makes no move.
-/

namespace Custody

variable {τ ρ : Type}

structure State (τ ρ : Type) where
  held : ρ → Option τ
  inside : τ → Bool
  stopped : τ → Bool

variable {s s' : State τ ρ} {t u : τ} {r r' : ρ} {o : Option τ} {b : Bool}

/-- The task holds a resource or is inside a section. -/
def State.Burdened (s : State τ ρ) (t : τ) : Prop := s.inside t = true ∨ ∃ r, s.held r = some t

section Resources

variable [DecidableEq ρ]

/-- Resource `r` goes to `o`. -/
def State.give (s : State τ ρ) (r : ρ) (o : Option τ) : State τ ρ :=
  { s with held := Function.update s.held r o }

@[simp] theorem give_inside : (s.give r o).inside = s.inside := rfl
@[simp] theorem give_stopped : (s.give r o).stopped = s.stopped := rfl
@[simp] theorem give_self : (s.give r o).held r = o := by simp [State.give]

theorem give_other (h : r' ≠ r) : (s.give r o).held r' = s.held r' := by simp [State.give, h]

theorem give_burdened (h : (s.give r o).Burdened u) : s.Burdened u ∨ o = some u := by
  rcases h with hi | ⟨r', hr⟩
  · exact .inl (.inl hi)
  · by_cases he : r' = r
    · rw [he, give_self] at hr
      exact .inr hr
    · rw [give_other he] at hr
      exact .inl (.inr ⟨r', hr⟩)

end Resources

section Tasks

variable [DecidableEq τ]

/-- Task `t` passes the border of the section. -/
def State.mark (s : State τ ρ) (t : τ) (b : Bool) : State τ ρ :=
  { s with inside := Function.update s.inside t b }

/-- Task `t` is stopped or let go. -/
def State.halt (s : State τ ρ) (t : τ) (b : Bool) : State τ ρ :=
  { s with stopped := Function.update s.stopped t b }

@[simp] theorem mark_held : (s.mark t b).held = s.held := rfl
@[simp] theorem mark_stopped : (s.mark t b).stopped = s.stopped := rfl
@[simp] theorem halt_held : (s.halt t b).held = s.held := rfl
@[simp] theorem halt_inside : (s.halt t b).inside = s.inside := rfl
@[simp] theorem mark_self : (s.mark t b).inside t = b := by simp [State.mark]
@[simp] theorem halt_self : (s.halt t b).stopped t = b := by simp [State.halt]

theorem mark_other (h : u ≠ t) : (s.mark t b).inside u = s.inside u := by simp [State.mark, h]

theorem halt_other (h : u ≠ t) : (s.halt t b).stopped u = s.stopped u := by simp [State.halt, h]

theorem mark_burdened (h : (s.mark t b).Burdened u) : s.Burdened u ∨ u = t ∧ b = true := by
  rcases h with hi | hr
  · by_cases he : u = t
    · rw [he, mark_self] at hi
      exact .inr ⟨he, hi⟩
    · rw [mark_other he] at hi
      exact .inl (.inl hi)
  · exact .inl (.inr hr)

end Tasks

variable [DecidableEq τ] [DecidableEq ρ] {careful : Prop}

/-- Moves of the task `t`.  By `convert` it leaves the section and takes a resource at once. -/
inductive Step (careful : Prop) (s : State τ ρ) (t : τ) : State τ ρ → Prop
  | skip : Step careful s t s
  | stop (u : τ) (hc : careful → ¬s.Burdened u) : Step careful s t (s.halt u true)
  | resume (u : τ) : Step careful s t (s.halt u false)
  | take (r : ρ) (hr : s.held r = none) (hc : careful → s.stopped t = false) :
      Step careful s t (s.give r (some t))
  | drop (r : ρ) (hr : s.held r = some t) : Step careful s t (s.give r none)
  | enter (hi : s.inside t = false) (hc : careful → s.stopped t = false) :
      Step careful s t (s.mark t true)
  | leave (hi : s.inside t = true) : Step careful s t (s.mark t false)
  | convert (r : ρ) (hi : s.inside t = true) (hr : s.held r = none) :
      Step careful s t ((s.mark t false).give r (some t))

/-- A task that carries something after a move did so before, or has just taken it on. -/
theorem Step.burdened (h : Step careful s t s') (hu : s'.Burdened u) :
    s.Burdened u ∨ u = t ∧ (careful → s.stopped u = false) := by
  cases h with
  | skip | stop _ _ | resume _ => exact .inl hu
  | take r hr hc =>
    rcases give_burdened hu with hold | he
    · exact .inl hold
    · cases he
      exact .inr ⟨rfl, hc⟩
  | drop r hr =>
    rcases give_burdened hu with hold | he
    · exact .inl hold
    · cases he
  | enter hi hc =>
    rcases mark_burdened hu with hold | ⟨rfl, -⟩
    · exact .inl hold
    · exact .inr ⟨rfl, hc⟩
  | leave hi =>
    rcases mark_burdened hu with hold | ⟨-, hb⟩
    · exact .inl hold
    · cases hb
  | convert r hi hr =>
    rcases give_burdened hu with hold | he
    · rcases mark_burdened hold with hold | ⟨-, hb⟩
      · exact .inl hold
      · cases hb
    · cases he
      exact .inl (.inl hi)

/-- A task that is stopped after a move was stopped before, or was stopped by it. -/
theorem Step.stopped (h : Step careful s t s') (hu : s'.stopped u = true) :
    s.stopped u = true ∨ (careful → ¬s.Burdened u) ∧ s' = s.halt u true := by
  cases h with
  | stop v hc =>
    by_cases he : u = v
    · subst he
      exact .inr ⟨hc, rfl⟩
    · rw [halt_other he] at hu
      exact .inl hu
  | resume v =>
    by_cases he : u = v
    · rw [he, halt_self] at hu
      cases hu
    · rw [halt_other he] at hu
      exact .inl hu
  | skip | take _ _ _ | drop _ _ | enter _ _ | leave _ | convert _ _ _ => exact .inl hu

/-- Nothing is in the hands of a stopped task. -/
def Clean (s : State τ ρ) : Prop := ∀ t, s.stopped t = true → ¬s.Burdened t

theorem Step.clean (h : Step careful s t s') (hc : careful) (hs : Clean s) : Clean s' := by
  intro u hu hb
  rcases h.stopped hu with hold | ⟨hnew, rfl⟩
  · rcases h.burdened hb with hb | ⟨-, hrun⟩
    · exact hs u hold hb
    · rw [hrun hc] at hold
      cases hold
  · exact hnew hc hb

/-- What a task holds does not leave it by the moves of others. -/
theorem Step.keeps (h : Step careful s t s') (hu : u ≠ t) (hr : s.held r = some u) :
    s'.held r = some u := by
  have hgive : ∀ r' o, s.held r' = none ∨ s.held r' = some t → (s.give r' o).held r = some u := by
    intro r' o hr'
    have he : r ≠ r' := by
      rintro rfl
      rcases hr' with hr' | hr' <;> rw [hr] at hr'
      · cases hr'
      · exact hu (Option.some.inj hr')
    rw [give_other he]
    exact hr
  cases h with
  | skip | stop _ _ | resume _ | enter _ _ | leave _ => exact hr
  | take r' hr' hc => exact hgive r' _ (.inl hr')
  | drop r' hr' => exact hgive r' _ (.inr hr')
  | convert r' hi hr' => exact hgive r' _ (.inl hr')

end Custody
