import Mathlib.Logic.Function.Basic
import Mathlib.Logic.Relation

/-!
# Programs that make calls

A program returns, makes a call and goes on with the answer, or runs a loop whose body says
whether to go round again.  What a call does is not part of a program: `wp` checks a program
against rules that say which calls are allowed and what they may change, and `Config` runs one
program per thread over a state that the threads share.
-/

namespace Programs

open Relation
open Function (update update_eq_self update_of_ne update_self)

/-- Programs over the calls `C`, where the call `c` is answered by an `R c`. -/
inductive Prog (C : Type) (R : C → Type) : Type → Type 1
  | ret {α : Type} (a : α) : Prog C R α
  | call {α : Type} (c : C) (k : R c → Prog C R α) : Prog C R α
  | loop {σ β α : Type} (body : σ → Prog C R (σ ⊕ β)) (s : σ) (k : β → Prog C R α) : Prog C R α

variable {C : Type} {R : C → Type} {α β σ L S T : Type}

namespace Prog

def bind : Prog C R α → (α → Prog C R β) → Prog C R β
  | .ret a, f => f a
  | .call c k, f => .call c fun r => (k r).bind f
  | .loop body s k, f => .loop body s fun b => (k b).bind f

instance : Monad (Prog C R) where
  pure := ret
  bind := bind

/-- Make one call. -/
def perform (c : C) : Prog C R (R c) := .call c .ret

/-- Go round until the body returns a result. -/
def iterate (body : σ → Prog C R (σ ⊕ β)) (s : σ) : Prog C R β := .loop body s .ret

/-- The first round of a loop. -/
def unroll (body : σ → Prog C R (σ ⊕ β)) (s : σ) (k : β → Prog C R α) : Prog C R α :=
  (body s).bind (Sum.elim (fun s' => .loop body s' k) k)

end Prog

open Prog

/-- Which calls are allowed in a state, and what an answered call makes of it. -/
structure Rules (C : Type) (R : C → Type) (L : Type) where
  allowed : L → C → Prop
  after : L → (c : C) → R c → L → Prop

/-- Every call that the program makes from `l` on is allowed, whatever the answers, and if it
returns then with a result and a state that satisfy `Q`. -/
def wp (rules : Rules C R L) : {α : Type} → Prog C R α → (α → L → Prop) → L → Prop
  | _, .ret a, Q, l => Q a l
  | _, .call c k, Q, l => rules.allowed l c ∧ ∀ r l', rules.after l c r l' → wp rules (k r) Q l'
  | _, .loop body s k, Q, l => ∃ I : _ → L → Prop, I s l ∧ ∀ s l, I s l →
      wp rules (body s) (Sum.elim I fun b => wp rules (k b) Q) l

variable {rules : Rules C R L}

theorem wp.mono {p : Prog C R α} {P Q : α → L → Prop} {l : L} (h : wp rules p P l)
    (hpq : ∀ a l, P a l → Q a l) : wp rules p Q l := by
  induction p generalizing l with
  | ret a => exact hpq a l h
  | call c k ih => exact ⟨h.1, fun r l' ha => ih r (h.2 r l' ha) hpq⟩
  | loop body s k ihbody ihk =>
    obtain ⟨I, hI, hbody⟩ := h
    refine ⟨I, hI, fun s l hs => ihbody s (hbody s l hs) fun x l' hx => ?_⟩
    cases x with
    | inl s' => exact hx
    | inr b => exact ihk b hx hpq

/-- Rules that allow more and expect less. -/
theorem wp.weaken {rules' : Rules C R L} {p : Prog C R α} {Q : α → L → Prop} {l : L}
    (h : wp rules p Q l) (hallowed : ∀ l c, rules.allowed l c → rules'.allowed l c)
    (hafter : ∀ l c r l', rules'.after l c r l' → rules.after l c r l') : wp rules' p Q l := by
  induction p generalizing l with
  | ret a => exact h
  | call c k ih => exact ⟨hallowed l c h.1, fun r l' ha => ih r (h.2 r l' (hafter l c r l' ha))⟩
  | loop body s k ihbody ihk =>
    obtain ⟨I, hI, hbody⟩ := h
    refine ⟨I, hI, fun s l hs => (ihbody s (hbody s l hs)).mono fun x l' hx => ?_⟩
    cases x with
    | inl s' => exact hx
    | inr b => exact ihk b hx

/-- The second program starts where the first one stops. -/
theorem wp_bind_prog (p : Prog C R α) (f : α → Prog C R β) (Q : β → L → Prop) (l : L)
    (h : wp rules p (fun a => wp rules (f a) Q) l) : wp rules (p.bind f) Q l := by
  induction p generalizing l with
  | ret a => exact h
  | call c k ih => exact ⟨h.1, fun r l' ha => ih r f l' (h.2 r l' ha)⟩
  | loop body s k ihbody ihk =>
    obtain ⟨I, hI, hbody⟩ := h
    refine ⟨I, hI, fun s l hs => (hbody s l hs).mono fun x l' hx => ?_⟩
    cases x with
    | inl s' => exact hx
    | inr b => exact ihk b f l' hx

theorem wp_bind {p : Prog C R α} {f : α → Prog C R β} {Q : β → L → Prop} {l : L}
    (h : wp rules p (fun a => wp rules (f a) Q) l) : wp rules (p >>= f) Q l :=
  wp_bind_prog p f Q l h

theorem wp_pure {a : α} {Q : α → L → Prop} {l : L} (h : Q a l) :
    wp rules (pure a : Prog C R α) Q l := h

theorem wp_perform {c : C} {Q : R c → L → Prop} {l : L} (hc : rules.allowed l c)
    (h : ∀ r l', rules.after l c r l' → Q r l') : wp rules (perform c) Q l := ⟨hc, h⟩

/-- A loop is verified by an invariant. -/
theorem wp_iterate {body : σ → Prog C R (σ ⊕ β)} {s : σ} {Q : β → L → Prop} {l : L}
    (I : σ → L → Prop) (hI : I s l)
    (hbody : ∀ s l, I s l → wp rules (body s) (Sum.elim I Q) l) : wp rules (iterate body s) Q l :=
  ⟨I, hI, hbody⟩

theorem wp_unroll {body : σ → Prog C R (σ ⊕ β)} {s : σ} {k : β → Prog C R α} {Q : α → L → Prop}
    {l : L} (h : wp rules (.loop body s k) Q l) : wp rules (unroll body s k) Q l := by
  obtain ⟨I, hI, hbody⟩ := h
  apply wp_bind_prog
  refine (hbody s l hI).mono fun x l' hx => ?_
  cases x with
  | inl s' => exact ⟨I, hx, hbody⟩
  | inr b => exact hx

/-- Threads `T`, each with the program it still has to run, over a shared state `S`. -/
structure Config (C : Type) (R : C → Type) (S T : Type) where
  shared : S
  prog : T → Prog C R Unit

namespace Config

variable [DecidableEq T]

/-- One thread makes its next call, answered as `exec` says, or goes into a round of a loop. -/
inductive Step (exec : T → S → (c : C) → R c → S → Prop) (cfg : Config C R S T) :
    Config C R S T → Prop
  | call {t : T} {c : C} {k : R c → Prog C R Unit} {r : R c} {s' : S}
      (hp : cfg.prog t = .call c k) (hx : exec t cfg.shared c r s') :
      Step exec cfg ⟨s', update cfg.prog t (k r)⟩
  | unroll {t : T} {σ β : Type} {body : σ → Prog C R (σ ⊕ β)} {s : σ} {k : β → Prog C R Unit}
      (hp : cfg.prog t = .loop body s k) :
      Step exec cfg ⟨cfg.shared, update cfg.prog t (Prog.unroll body s k)⟩

/-- Every thread keeps to the rules from some state of its own on, and these states fit the
shared one. -/
def Keeps (rules : Rules C R L) (I : S → (T → L) → Prop) (cfg : Config C R S T) : Prop :=
  ∃ ls : T → L, I cfg.shared ls ∧ ∀ t, wp rules (cfg.prog t) (fun _ _ => True) (ls t)

variable {exec : T → S → (c : C) → R c → S → Prop} {I : S → (T → L) → Prop}
  {cfg cfg' : Config C R S T}

/-- What is left of the program of the thread that moved keeps to the rules, and so do the
others. -/
theorem wp_update {prog : T → Prog C R Unit} {ls : T → L} {Q : Unit → L → Prop}
    (h : ∀ t, wp rules (prog t) Q (ls t)) {t : T} {p : Prog C R Unit} {l : L}
    (hp : wp rules p Q l) (u : T) :
    wp rules (update prog t p u) Q (update ls t l u) := by
  by_cases hu : u = t
  · subst hu
    rw [update_self, update_self]
    exact hp
  · rw [update_of_ne hu, update_of_ne hu]
    exact h u

/-- A call that a thread makes next is allowed, and the rest of its program keeps to the rules. -/
theorem wp_call {prog : T → Prog C R Unit} {ls : T → L} {Q : Unit → L → Prop}
    (h : ∀ t, wp rules (prog t) Q (ls t)) {t : T} {c : C} {k : R c → Prog C R Unit}
    (hp : prog t = .call c k) :
    rules.allowed (ls t) c ∧ ∀ r l', rules.after (ls t) c r l' →
      ∀ u, wp rules (update prog t (k r) u) Q (update ls t l' u) := by
  have hc := h t
  rw [hp] at hc
  exact ⟨hc.1, fun r l' hafter => wp_update h (hc.2 r l' hafter)⟩

theorem wp_round {prog : T → Prog C R Unit} {ls : T → L} {Q : Unit → L → Prop}
    (h : ∀ t, wp rules (prog t) Q (ls t)) {t : T} {body : σ → Prog C R (σ ⊕ β)} {s : σ}
    {k : β → Prog C R Unit} (hp : prog t = .loop body s k) (u : T) :
    wp rules (update prog t (Prog.unroll body s k) u) Q (ls u) := by
  have hc := h t
  rw [hp] at hc
  have hu := wp_update h (t := t) (wp_unroll hc) u
  rw [update_eq_self] at hu
  exact hu

/-- If allowed calls preserve the fit then so does every step. -/
theorem Keeps.step (hexec : ∀ t s ls c r s', I s ls → rules.allowed (ls t) c → exec t s c r s' →
      ∃ l', rules.after (ls t) c r l' ∧ I s' (update ls t l'))
    (h : cfg.Keeps rules I) (hs : Step exec cfg cfg') : cfg'.Keeps rules I := by
  obtain ⟨ls, hI, hwp⟩ := h
  cases hs with
  | @call t c k r s' hp hx =>
    obtain ⟨hc, hrest⟩ := wp_call hwp hp
    obtain ⟨l', hafter, hI'⟩ := hexec t cfg.shared ls c r s' hI hc hx
    exact ⟨update ls t l', hI', hrest r l' hafter⟩
  | unroll hp => exact ⟨ls, hI, wp_round hwp hp⟩

theorem Keeps.run (hexec : ∀ t s ls c r s', I s ls → rules.allowed (ls t) c → exec t s c r s' →
      ∃ l', rules.after (ls t) c r l' ∧ I s' (update ls t l'))
    (h : cfg.Keeps rules I) (hs : ReflTransGen (Step exec) cfg cfg') : cfg'.Keeps rules I := by
  induction hs with
  | refl => exact h
  | tail _ hstep ih => exact ih.step hexec hstep

/-- A call that a thread made, and the answer to it. -/
structure Event (C : Type) (R : C → Type) (T : Type) where
  thread : T
  call : C
  answer : R call

/-- The configurations reached from `cfg₀`, with the calls on the way, the last one first. -/
inductive History (exec : T → S → (c : C) → R c → S → Prop) (cfg₀ : Config C R S T) :
    List (Event C R T) → Config C R S T → Prop
  | start : History exec cfg₀ [] cfg₀
  | call {es : List (Event C R T)} {cfg : Config C R S T} {t : T} {c : C} {k : R c → Prog C R Unit}
      {r : R c} {s' : S} (h : History exec cfg₀ es cfg) (hp : cfg.prog t = .call c k)
      (hx : exec t cfg.shared c r s') :
      History exec cfg₀ (⟨t, c, r⟩ :: es) ⟨s', update cfg.prog t (k r)⟩
  | unroll {es : List (Event C R T)} {cfg : Config C R S T} {t : T} {σ β : Type}
      {body : σ → Prog C R (σ ⊕ β)} {s : σ} {k : β → Prog C R Unit}
      (h : History exec cfg₀ es cfg) (hp : cfg.prog t = .loop body s k) :
      History exec cfg₀ es ⟨cfg.shared, update cfg.prog t (Prog.unroll body s k)⟩

/-- What each thread knows after some calls, if an answer changes what it knows by `next`. -/
def knowledge (next : L → (c : C) → R c → L) (l₀ : L) : List (Event C R T) → T → L
  | [] => fun _ => l₀
  | e :: es => update (knowledge next l₀ es) e.thread
      (next (knowledge next l₀ es e.thread) e.call e.answer)

variable {cfg₀ : Config C R S T} {es : List (Event C R T)} {next : L → (c : C) → R c → L} {l₀ : L}

/-- The threads keep to the rules all along a history, each by what it knows. -/
theorem History.keeps (hexec : ∀ t s ls c r s', I s ls → rules.allowed (ls t) c →
      exec t s c r s' → rules.after (ls t) c r (next (ls t) c r) ∧
        I s' (update ls t (next (ls t) c r)))
    (hI : I cfg₀.shared fun _ => l₀)
    (hwp : ∀ t, wp rules (cfg₀.prog t) (fun _ _ => True) l₀) (h : History exec cfg₀ es cfg) :
    I cfg.shared (knowledge next l₀ es) ∧
      ∀ t, wp rules (cfg.prog t) (fun _ _ => True) (knowledge next l₀ es t) := by
  induction h with
  | start => exact ⟨hI, hwp⟩
  | call _ hp hx ih =>
    obtain ⟨hfit, hkeep⟩ := ih
    obtain ⟨hc, hrest⟩ := wp_call hkeep hp
    obtain ⟨hafter, hfit'⟩ := hexec _ _ _ _ _ _ hfit hc hx
    exact ⟨hfit', hrest _ _ hafter⟩
  | unroll _ hp ih => exact ⟨ih.1, wp_round ih.2 hp⟩

theorem History.append {cfg₁ : Config C R S T} {es' : List (Event C R T)}
    (h : History exec cfg₀ es cfg₁) (h' : History exec cfg₁ es' cfg) :
    History exec cfg₀ (es' ++ es) cfg := by
  induction h' with
  | start => exact h
  | call _ hp hx ih => exact ih.call hp hx
  | unroll _ hp ih => exact ih.unroll hp

theorem History.run (h : History exec cfg₀ es cfg) : ReflTransGen (Step exec) cfg₀ cfg := by
  induction h with
  | start => exact .refl
  | call _ hp hx ih => exact ih.tail (.call hp hx)
  | unroll _ hp ih => exact ih.tail (.unroll hp)

/-- The same history with fewer answers. -/
theorem History.mono {exec' : T → S → (c : C) → R c → S → Prop}
    (hsub : ∀ t s c r s', exec t s c r s' → exec' t s c r s') (h : History exec cfg₀ es cfg) :
    History exec' cfg₀ es cfg := by
  induction h with
  | start => exact .start
  | call _ hp hx ih => exact ih.call hp (hsub _ _ _ _ _ hx)
  | unroll _ hp ih => exact ih.unroll hp

end Config

/-- If what a thread holds always comes before what it waits for, then no threads wait for each
other in a circle. -/
theorem no_waiting_cycle {ρ : Type} {awaits holds : T → ρ → Prop} {before : ρ → ρ → Prop}
    (irrefl : ∀ r, ¬ before r r) (trans : ∀ {a b c}, before a b → before b c → before a c)
    (ordered : ∀ t a b, holds t a → awaits t b → before a b) (t : T) :
    ¬ TransGen (fun t u => ∃ r, awaits t r ∧ holds u r) t t := by
  intro hcycle
  have hrank : ∀ u, TransGen (fun t u => ∃ r, awaits t r ∧ holds u r) t u →
      ∃ r, awaits t r ∧ ∀ r', awaits u r' → before r r' := by
    intro u hu
    induction hu with
    | single h =>
      obtain ⟨r, hr, hheld⟩ := h
      exact ⟨r, hr, fun r' hr' => ordered _ r r' hheld hr'⟩
    | tail _ h ih =>
      obtain ⟨r, hr, hall⟩ := ih
      obtain ⟨a, ha, hheld⟩ := h
      exact ⟨r, hr, fun r' hr' => trans (hall a ha) (ordered _ a r' hheld hr')⟩
  obtain ⟨r, hr, hall⟩ := hrank t hcycle
  exact irrefl r (hall r hr)

end Programs
