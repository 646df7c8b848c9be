import Mathlib.Data.List.Basic
import Mathlib.Data.List.Nodup
import Mathlib.Logic.Function.Basic

/-!
# Rings of linked nodes

Nodes with a link forth and a link back, in a ring through a head node.  `Ring l h xs` says that the
links `l` lead from the head `h` through the nodes `xs` and back to it, and the same way in the other
direction.
-/

namespace LinkedRing

open Function (update update_of_ne update_self)

variable {α : Type}

structure Links (α : Type) where
  next : α → α
  prev : α → α

/-- The links lead from `a` through `xs` to `z`. -/
def Path (l : Links α) : α → List α → α → Prop
  | a, [], z => l.next a = z ∧ l.prev z = a
  | a, x :: xs, z => l.next a = x ∧ l.prev x = a ∧ Path l x xs z

structure Ring (l : Links α) (h : α) (xs : List α) : Prop where
  nodup : (h :: xs).Nodup
  path : Path l h xs h

variable {l l' : Links α} {a b h z : α} {xs ys : List α}

theorem path_append : Path l a (xs ++ b :: ys) z ↔ Path l a xs b ∧ Path l b ys z := by
  induction xs generalizing a with
  | nil => simp [Path, and_assoc]
  | cons x xs ih => simp [Path, ih, and_assoc]

/-- A path does not change where its nodes keep their links. -/
theorem Path.congr (hp : Path l a xs z) (hnext : ∀ x, x ∈ a :: xs → l'.next x = l.next x)
    (hprev : ∀ x, x ∈ xs ++ [z] → l'.prev x = l.prev x) : Path l' a xs z := by
  induction xs generalizing a with
  | nil => simpa [Path, hnext a, hprev z] using hp
  | cons x xs ih =>
    obtain ⟨hn, hv, hrest⟩ := hp
    refine ⟨?_, ?_, ih hrest ?_ ?_⟩
    · rw [hnext a List.mem_cons_self, hn]
    · rw [hprev x List.mem_cons_self, hv]
    · exact fun y hy => hnext y (List.mem_cons_of_mem a hy)
    · exact fun y hy => hprev y (List.mem_cons_of_mem x hy)

/-! ## Walking -/

section Walk

variable [DecidableEq α]

/-- The nodes that a loop visits which follows `step` until it comes to `h`. -/
def walk (step : α → α) (h : α) : Nat → α → List α
  | 0, _ => []
  | n + 1, a => if a = h then [] else a :: walk step h n (step a)

theorem walk_path (hp : Path l a xs h) (hmem : h ∉ xs) {n : Nat} (hn : xs.length < n) :
    walk l.next h n (l.next a) = xs := by
  induction xs generalizing a n with
  | nil =>
    obtain ⟨m, rfl⟩ : ∃ m, n = m + 1 := ⟨n - 1, by omega⟩
    simp [walk, hp.1]
  | cons x xs ih =>
    obtain ⟨m, rfl⟩ : ∃ m, n = m + 1 := ⟨n - 1, by omega⟩
    rw [List.mem_cons, not_or] at hmem
    simp only [List.length_cons] at hn
    rw [walk, hp.1, if_neg (Ne.symm hmem.1), ih hp.2.2 hmem.2 (by omega)]

/-- The same links, the other way round. -/
def Links.flip (l : Links α) : Links α := ⟨l.prev, l.next⟩

omit [DecidableEq α] in
theorem Path.flip (hp : Path l a xs z) : Path l.flip z xs.reverse a := by
  induction xs generalizing a with
  | nil => exact ⟨hp.2, hp.1⟩
  | cons x xs ih =>
    rw [List.reverse_cons]
    exact path_append.mpr ⟨ih hp.2.2, hp.2.1, hp.1⟩

theorem Ring.walk_next (hr : Ring l h xs) {n : Nat} (hn : xs.length < n) :
    walk l.next h n (l.next h) = xs :=
  walk_path hr.path (List.nodup_cons.mp hr.nodup).1 hn

theorem Ring.walk_prev (hr : Ring l h xs) {n : Nat} (hn : xs.length < n) :
    walk l.prev h n (l.prev h) = xs.reverse := by
  refine walk_path hr.path.flip ?_ (by rwa [List.length_reverse])
  rw [List.mem_reverse]
  exact (List.nodup_cons.mp hr.nodup).1

/-! ## Moving a node -/

/-- `b->next->prev = b->prev; b->prev->next = b->next` -/
def unlink (l : Links α) (b : α) : Links α :=
  let l₁ := { l with prev := update l.prev (l.next b) (l.prev b) }
  { l₁ with next := update l₁.next (l₁.prev b) (l₁.next b) }

/-- `b->next = h->next; b->prev = h; h->next->prev = b; h->next = b` -/
def insertFront (l : Links α) (h b : α) : Links α :=
  let l₁ := { l with next := update l.next b (l.next h) }
  let l₂ := { l₁ with prev := update l₁.prev b h }
  let l₃ := { l₂ with prev := update l₂.prev (l₂.next h) b }
  { l₃ with next := update l₃.next h b }

omit [DecidableEq α] in
theorem Path.prev_mem (hp : Path l a xs z) : l.prev z ∈ a :: xs := by
  induction xs generalizing a with
  | nil => simp [hp.2]
  | cons x xs ih => exact List.mem_cons_of_mem a (ih hp.2.2)

omit [DecidableEq α] in
theorem Path.next_mem (hp : Path l a xs z) : l.next a ∈ xs ++ [z] := by
  cases xs with
  | nil => simp [hp.1]
  | cons x xs => simp [hp.1]

/-- The path goes past `b`. -/
theorem path_unlink (hb : Path l a xs b) (hz : Path l b ys z) (hnodup : (xs ++ b :: ys).Nodup)
    (hends : ∀ x ∈ xs ++ b :: ys, x ≠ a ∧ x ≠ z) : Path (unlink l b) a (xs ++ ys) z := by
  have hbz : b ≠ z := (hends b (by simp)).2
  have hne : l.next b ≠ b := by
    intro he
    have hmem := hz.next_mem
    rw [he, List.mem_append, List.mem_singleton] at hmem
    rcases hmem with hmem | hmem
    · exact (List.nodup_cons.mp (List.nodup_append.mp hnodup).2.1).1 hmem
    · exact hbz hmem
  have hnext : (unlink l b).next = update l.next (l.prev b) (l.next b) := by
    simp only [unlink, update_of_ne (Ne.symm hne)]
  have hprev : (unlink l b).prev = update l.prev (l.next b) (l.prev b) := rfl
  induction xs generalizing a with
  | nil =>
    rw [hb.2] at hnext hprev
    cases ys with
    | nil =>
      rw [hz.1] at hnext hprev
      exact ⟨by rw [hnext, update_self], by rw [hprev, update_self]⟩
    | cons y ys =>
      rw [hz.1] at hnext hprev
      have hnd : (b :: y :: ys).Nodup := hnodup
      have hy := (List.nodup_cons.mp (List.nodup_cons.mp hnd).2).1
      refine ⟨by rw [hnext, update_self], by rw [hprev, update_self], ?_⟩
      refine hz.2.2.congr (fun x hx => ?_) fun x hx => ?_
      · rw [hnext, update_of_ne (hends x (List.mem_cons_of_mem b hx)).1]
      · rw [hprev, update_of_ne]
        rintro rfl
        rcases List.mem_append.mp hx with hx | hx
        · exact hy hx
        · exact (hends x (by simp)).2 (List.mem_singleton.mp hx)
  | cons x xs ih =>
    have hnd := List.nodup_cons.mp hnodup
    -- the node before `b` comes after `a`, the node after `b` after `x`
    have hlast := hb.2.2.prev_mem
    have hfirst := hz.next_mem
    have hends' : ∀ y ∈ xs ++ b :: ys, y ≠ x ∧ y ≠ z := by
      intro y hy
      refine ⟨?_, (hends y (List.mem_cons_of_mem x hy)).2⟩
      rintro rfl
      exact hnd.1 hy
    refine ⟨?_, ?_, ih hb.2.2 hnd.2 hends'⟩
    · rw [hnext, update_of_ne, hb.1]
      intro he
      rw [← he] at hlast
      rcases List.mem_cons.mp hlast with rfl | hmem
      · exact (hends a (by simp)).1 rfl
      · exact (hends a (List.mem_cons_of_mem x (List.mem_append_left _ hmem))).1 rfl
    · rw [hprev, update_of_ne, hb.2.1]
      intro he
      rw [← he] at hfirst
      rcases List.mem_append.mp hfirst with hmem | hmem
      · exact hnd.1 (List.mem_append_right _ (List.mem_cons_of_mem b hmem))
      · exact (hends x (by simp)).2 (List.mem_singleton.mp hmem)

theorem Ring.unlink (hr : Ring l h (xs ++ b :: ys)) : Ring (unlink l b) h (xs ++ ys) := by
  obtain ⟨hpre, hpost⟩ := path_append.mp hr.path
  have hnd := List.nodup_cons.mp hr.nodup
  have hsub : (xs ++ ys).Sublist (xs ++ b :: ys) :=
    (List.Sublist.refl xs).append (List.sublist_cons_self b ys)
  refine ⟨List.nodup_cons.mpr ⟨fun hmem => hnd.1 (hsub.subset hmem), hnd.2.sublist hsub⟩, ?_⟩
  refine path_unlink hpre hpost hnd.2 fun x hx => ?_
  have hne : x ≠ h := by
    rintro rfl
    exact hnd.1 hx
  exact ⟨hne, hne⟩

theorem Ring.insertFront (hr : Ring l h xs) (hb : b ∉ h :: xs) :
    Ring (insertFront l h b) h (b :: xs) := by
  have hbh : b ≠ h := fun he => hb (he ▸ List.mem_cons_self)
  have hnd := List.nodup_cons.mp hr.nodup
  have hnext : (LinkedRing.insertFront l h b).next =
      update (update l.next b (l.next h)) h b := rfl
  have hprev : (LinkedRing.insertFront l h b).prev =
      update (update l.prev b h) (l.next h) b := by
    simp only [LinkedRing.insertFront, update_of_ne (Ne.symm hbh)]
  have hself : l.next h ≠ b := by
    intro he
    have hmem := hr.path.next_mem
    rw [he, List.mem_append, List.mem_singleton] at hmem
    rcases hmem with hmem | hmem
    · exact hb (List.mem_cons_of_mem h hmem)
    · exact hbh hmem
  refine ⟨List.nodup_cons.mpr ⟨?_, List.nodup_cons.mpr ⟨?_, hnd.2⟩⟩, ?_, ?_, ?_⟩
  · rw [List.mem_cons, not_or]
    exact ⟨Ne.symm hbh, hnd.1⟩
  · exact fun hmem => hb (List.mem_cons_of_mem h hmem)
  · rw [hnext, update_self]
  · rw [hprev, update_of_ne (Ne.symm hself), update_self]
  · cases xs with
    | nil =>
      rw [hr.path.1] at hnext hprev
      refine ⟨?_, ?_⟩
      · rw [hnext, update_of_ne hbh, update_self]
      · rw [hprev, update_self]
    | cons x xs =>
      rw [hr.path.1] at hnext hprev
      refine ⟨?_, ?_, hr.path.2.2.congr (fun y hy => ?_) fun y hy => ?_⟩
      · rw [hnext, update_of_ne hbh, update_self]
      · rw [hprev, update_self]
      · have hyh : y ≠ h := fun he => hnd.1 (he ▸ hy)
        have hyb : y ≠ b := fun he => hb (List.mem_cons_of_mem h (he ▸ hy))
        rw [hnext, update_of_ne hyh, update_of_ne hyb]
      · have hyx : y ≠ x := by
          rintro rfl
          rcases List.mem_append.mp hy with hy | hy
          · exact (List.nodup_cons.mp hnd.2).1 hy
          · exact hnd.1 (List.mem_singleton.mp hy ▸ List.mem_cons_self)
        have hyb : y ≠ b := by
          rintro rfl
          rcases List.mem_append.mp hy with hy | hy
          · exact hb (List.mem_cons_of_mem h (List.mem_cons_of_mem x hy))
          · exact hbh (List.mem_singleton.mp hy)
        rw [hprev, update_of_ne hyx, update_of_ne hyb]

/-- A node goes to the front. -/
theorem Ring.toFront (hr : Ring l h (xs ++ b :: ys)) :
    Ring (LinkedRing.insertFront (LinkedRing.unlink l b) h b) h (b :: (xs ++ ys)) := by
  refine hr.unlink.insertFront ?_
  have hnd := List.nodup_cons.mp hr.nodup
  have hb := (List.nodup_middle.mp hnd.2)
  rw [List.mem_cons, not_or]
  refine ⟨?_, (List.nodup_cons.mp hb).1⟩
  rintro rfl
  exact hnd.1 (by simp)

end Walk

end LinkedRing
