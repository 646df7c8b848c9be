import Mathlib.Data.Fin.Basic
import Mathlib.Logic.Function.Basic
import Mathlib.Logic.Relation

/-!
# Monitors with sleep and wakeup

Threads share one monitor lock.  A thread inside the monitor that finds a condition busy goes
to sleep on it in three moves: it commits to sleeping, drops the monitor, and falls asleep.
A thread that may end a condition then visits the threads one by one, still inside the
monitor, and passes a thread only when it no longer sleeps on the condition, so it waits for a
thread that is falling asleep and wakes one that is asleep.  A sleeping thread may also be
woken for other reasons at any time.  Under these rules no wakeup is lost: when the monitor
is free, whoever is asleep on a condition is waiting for a condition that is busy.
-/

namespace Monitor

variable {n : Nat} {C : Type}

/-- Where a thread stands with respect to the monitor. -/
inductive Phase (C : Type)
  | out
  | inside
  | about (c : C)
  | falling (c : C)
  | asleep (c : C)
  | waking (c : C) (i : Nat)
  deriving DecidableEq

/-- The phases in which a thread owns the monitor. -/
def Phase.holds : Phase C → Prop
  | .inside | .about _ | .waking _ _ => True
  | .out | .falling _ | .asleep _ => False

/-- A thread that has dropped the monitor to sleep on `c`. -/
def Phase.sleepsOn (c : C) (x : Phase C) : Prop :=
  x = .falling c ∨ x = .asleep c

structure State (n : Nat) (C : Type) where
  mon : Option (Fin n)
  phase : Fin n → Phase C
  busy : C → Prop

def State.move (s : State n C) (t : Fin n) (x : Phase C) : State n C :=
  { s with phase := Function.update s.phase t x }

inductive Step : State n C → State n C → Prop
  | enter {s} (t : Fin n) (hm : s.mon = none) (ht : s.phase t = .out) :
      Step s { s.move t .inside with mon := some t }
  | leave {s} (t : Fin n) (ht : s.phase t = .inside) :
      Step s { s.move t .out with mon := none }
  | work {s} (t : Fin n) (busy : C → Prop) (ht : s.phase t = .inside)
      (hb : ∀ c, s.busy c → busy c) : Step s { s with busy := busy }
  | release {s} (t : Fin n) (c : C) (busy : C → Prop) (ht : s.phase t = .inside)
      (hb : ∀ d, d ≠ c → s.busy d → busy d) :
      Step s { s.move t (.waking c 0) with busy := busy }
  | sleep {s} (t : Fin n) (c : C) (ht : s.phase t = .inside) (hb : s.busy c) :
      Step s (s.move t (.about c))
  | drop {s} (t : Fin n) (c : C) (ht : s.phase t = .about c) :
      Step s { s.move t (.falling c) with mon := none }
  | fall {s} (t : Fin n) (c : C) (ht : s.phase t = .falling c) : Step s (s.move t (.asleep c))
  | pass {s} (t u : Fin n) (c : C) (ht : s.phase t = .waking c u)
      (hu : ¬(s.phase u).sleepsOn c) : Step s (s.move t (.waking c (u + 1)))
  | finish {s} (t : Fin n) (c : C) (i : Nat) (ht : s.phase t = .waking c i) (hi : n ≤ i) :
      Step s (s.move t .inside)
  | stir {s} (t : Fin n) (c : C) (ht : s.phase t = .asleep c) : Step s (s.move t .out)

@[simp] theorem move_self (s : State n C) (t : Fin n) (x : Phase C) :
    (s.move t x).phase t = x := by
  simp [State.move]

theorem move_of_ne (s : State n C) (x : Phase C) {t u : Fin n} (h : u ≠ t) :
    (s.move t x).phase u = s.phase u := by
  simp [State.move, h]

/-- The owner of the monitor is the one thread inside it, a thread about to sleep has found
its condition busy, and a thread that sleeps on a condition that is no longer busy has still
to be visited. -/
structure Inv (s : State n C) : Prop where
  lock : ∀ t, s.mon = some t ↔ (s.phase t).holds
  about : ∀ t c, s.phase t = .about c → s.busy c
  waiting : ∀ t c, (s.phase t).sleepsOn c →
    s.busy c ∨ ∃ w i, s.phase w = .waking c i ∧ i ≤ t.val

section Moves

variable {s : State n C} {t : Fin n} {x : Phase C}

theorem Inv.holds_unique (h : Inv s) {u : Fin n} (ht : (s.phase t).holds)
    (hu : (s.phase u).holds) : u = t := by
  have heq := (h.lock u).2 hu
  rw [(h.lock t).2 ht] at heq
  exact (Option.some.inj heq).symm

theorem Inv.lock_inside (h : Inv s) (ht : (s.phase t).holds) (hx : x.holds) (u : Fin n) :
    s.mon = some u ↔ ((s.move t x).phase u).holds := by
  by_cases hut : u = t
  · subst hut
    rw [move_self]
    exact iff_of_true ((h.lock u).2 ht) hx
  · rw [move_of_ne s x hut]
    exact h.lock u

theorem Inv.lock_outside (h : Inv s) (ht : ¬(s.phase t).holds) (hx : ¬x.holds) (u : Fin n) :
    s.mon = some u ↔ ((s.move t x).phase u).holds := by
  by_cases hut : u = t
  · subst hut
    rw [move_self]
    exact iff_of_false (fun hm => ht ((h.lock u).1 hm)) hx
  · rw [move_of_ne s x hut]
    exact h.lock u

theorem Inv.lock_leave (h : Inv s) (ht : (s.phase t).holds) (hx : ¬x.holds) (u : Fin n) :
    none = some u ↔ ((s.move t x).phase u).holds := by
  refine iff_of_false (by simp) ?_
  by_cases hut : u = t
  · subst hut
    rwa [move_self]
  · rw [move_of_ne s x hut]
    exact fun hu => hut (h.holds_unique ht hu)

/-- A move of one thread keeps the clause about `about` if its own phase does. -/
theorem Inv.about_move (h : Inv s) (hx : ∀ c, x = .about c → s.busy c) (u : Fin n) (c : C)
    (hu : (s.move t x).phase u = .about c) : s.busy c := by
  by_cases hut : u = t
  · subst hut
    rw [move_self] at hu
    exact hx c hu
  · rw [move_of_ne s x hut] at hu
    exact h.about u c hu

/-- A move of a thread that is not waking anybody keeps the threads still to be visited. -/
theorem Inv.waiting_move (h : Inv s) (ht : ∀ c i, s.phase t ≠ .waking c i)
    (hx : ∀ c, x.sleepsOn c → s.busy c ∨ (s.phase t).sleepsOn c) (u : Fin n) (c : C)
    (hu : ((s.move t x).phase u).sleepsOn c) :
    s.busy c ∨ ∃ w i, (s.move t x).phase w = .waking c i ∧ i ≤ u.val := by
  have hold : s.busy c ∨ (s.phase u).sleepsOn c := by
    by_cases hut : u = t
    · subst hut
      rw [move_self] at hu
      exact hx c hu
    · rw [move_of_ne s x hut] at hu
      exact .inr hu
  rcases hold.elim .inl (h.waiting u c) with hb | ⟨w, i, hw, hi⟩
  · exact .inl hb
  · have hwt : w ≠ t := fun he => ht c i (he ▸ hw)
    exact .inr ⟨w, i, by rw [move_of_ne s x hwt, hw], hi⟩

/-- A visit of slot `t` keeps the threads still to be visited, if `t` does not sleep on the
condition visited. -/
theorem Inv.waiting_visit (h : Inv s) {v : Fin n} {d : C} (ht : s.phase t = .waking d v)
    (hv : ¬(s.phase v).sleepsOn d) (u : Fin n) (c : C)
    (hu : ((s.move t (.waking d (v + 1))).phase u).sleepsOn c) :
    s.busy c ∨ ∃ w i, (s.move t (.waking d (v + 1))).phase w = .waking c i ∧ i ≤ u.val := by
  have hut : u ≠ t := by
    intro he
    subst he
    rw [move_self] at hu
    simp [Phase.sleepsOn] at hu
  rw [move_of_ne s _ hut] at hu
  rcases h.waiting u c hu with hb | ⟨w, i, hw, hi⟩
  · exact .inl hb
  · by_cases hwt : w = t
    · subst hwt
      obtain ⟨rfl, rfl⟩ := Phase.waking.inj (ht.symm.trans hw)
      have huv : u ≠ v := fun he => hv (he ▸ hu)
      have hlt : v.val < u.val := lt_of_le_of_ne hi fun he => huv (Fin.ext he.symm)
      exact .inr ⟨w, v + 1, move_self s w _, hlt⟩
    · exact .inr ⟨w, i, by rw [move_of_ne s _ hwt, hw], hi⟩

/-- A thread that has visited every slot leaves nobody to be visited. -/
theorem Inv.waiting_end (h : Inv s) {d : C} {j : Nat} (ht : s.phase t = .waking d j)
    (hj : n ≤ j) (u : Fin n) (c : C) (hu : ((s.move t .inside).phase u).sleepsOn c) :
    s.busy c ∨ ∃ w i, (s.move t .inside).phase w = .waking c i ∧ i ≤ u.val := by
  have hut : u ≠ t := by
    intro he
    subst he
    simp [Phase.sleepsOn] at hu
  rw [move_of_ne s _ hut] at hu
  rcases h.waiting u c hu with hb | ⟨w, i, hw, hi⟩
  · exact .inl hb
  · have hwt : w ≠ t := by
      intro he
      subst he
      obtain ⟨-, rfl⟩ := Phase.waking.inj (ht.symm.trans hw)
      exact absurd u.isLt (by omega)
    exact .inr ⟨w, i, by rw [move_of_ne s _ hwt, hw], hi⟩

end Moves

theorem Inv.step {s s' : State n C} (h : Inv s) (hs : Step s s') : Inv s' := by
  cases hs with
  | enter t hm ht =>
    refine ⟨fun u => ?_, fun u c => h.about_move (by simp) u c, fun u c =>
      h.waiting_move (by simp [ht]) (by simp [Phase.sleepsOn]) u c⟩
    by_cases hut : u = t
    · subst hut
      simp [Phase.holds]
    · have hno : ¬(s.phase u).holds := fun hu => by simpa [hm] using (h.lock u).2 hu
      rw [show ({ s.move t .inside with mon := some t } : State n C).phase u = s.phase u from
        move_of_ne s _ hut]
      exact iff_of_false (fun he => hut (Option.some.inj he).symm) hno
  | leave t ht =>
    exact ⟨h.lock_leave (by simp [ht, Phase.holds]) (by simp [Phase.holds]),
      h.about_move (by simp), h.waiting_move (by simp [ht]) (by simp [Phase.sleepsOn])⟩
  | work t busy ht hb =>
    exact ⟨h.lock, fun u c hu => hb c (h.about u c hu),
      fun u c hu => (h.waiting u c hu).imp_left (hb c)⟩
  | release t c busy ht hb =>
    have hin : (s.phase t).holds := by simp [ht, Phase.holds]
    refine ⟨h.lock_inside hin trivial, fun u d hu => ?_, fun u d hu => ?_⟩
    · have hut : u ≠ t := by
        intro he
        subst he
        cases (move_self s u (.waking c 0)).symm.trans hu
      have hu' : s.phase u = .about d := (move_of_ne s (.waking c 0) hut).symm.trans hu
      exact absurd (h.holds_unique hin (by simp [hu', Phase.holds])) hut
    · by_cases hdc : d = c
      · subst hdc
        exact .inr ⟨t, 0, move_self s t _, Nat.zero_le _⟩
      · have hw := h.waiting_move (x := .waking c 0) (by simp [ht]) (by simp [Phase.sleepsOn]) u d hu
        exact hw.imp_left (hb d hdc)
  | sleep t c ht hb =>
    exact ⟨h.lock_inside (by simp [ht, Phase.holds]) trivial,
      h.about_move fun d hd => Phase.about.inj hd ▸ hb,
      h.waiting_move (by simp [ht]) (by simp [Phase.sleepsOn])⟩
  | drop t c ht =>
    refine ⟨h.lock_leave (by simp [ht, Phase.holds]) (by simp [Phase.holds]),
      h.about_move (by simp), h.waiting_move (by simp [ht]) fun d hd => .inl ?_⟩
    obtain rfl : c = d := by simpa [Phase.sleepsOn] using hd
    exact h.about t c ht
  | fall t c ht =>
    refine ⟨h.lock_outside (by simp [ht, Phase.holds]) (by simp [Phase.holds]),
      h.about_move (by simp), h.waiting_move (by simp [ht]) fun d hd => .inr ?_⟩
    obtain rfl : c = d := by simpa [Phase.sleepsOn] using hd
    exact .inl ht
  | pass t u c ht hu =>
    exact ⟨h.lock_inside (by simp [ht, Phase.holds]) trivial, h.about_move (by simp),
      h.waiting_visit ht hu⟩
  | finish t c i ht hi =>
    exact ⟨h.lock_inside (by simp [ht, Phase.holds]) trivial, h.about_move (by simp),
      h.waiting_end ht hi⟩
  | stir t c ht =>
    exact ⟨h.lock_outside (by simp [ht, Phase.holds]) (by simp [Phase.holds]),
      h.about_move (by simp), h.waiting_move (by simp [ht]) (by simp [Phase.sleepsOn])⟩

theorem Inv.run {s s' : State n C} (h : Inv s) (hs : Relation.ReflTransGen Step s s') : Inv s' := by
  induction hs with
  | refl => exact h
  | tail _ hm ih => exact ih.step hm

theorem Inv.no_lost_wakeup {s : State n C} (h : Inv s) (hm : s.mon = none) {t : Fin n} {c : C}
    (ht : s.phase t = .asleep c) : s.busy c := by
  rcases h.waiting t c (.inr ht) with hb | ⟨w, i, hw, -⟩
  · exact hb
  · have hown : s.mon = some w := (h.lock w).2 (by simp [hw, Phase.holds])
    simp [hm] at hown

end Monitor
