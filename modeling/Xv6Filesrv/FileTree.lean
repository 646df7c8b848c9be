/-!
# Trees of files

A directory with all that is in it, as a map from paths to nodes.  Directories and regular files
are all there is; a file has one path.
-/

namespace FileTree

inductive Node (A : Type) where
  | dir
  | file (content : A)

/-- What is found under the paths; what is found is found in a directory. -/
structure Tree (N A : Type) where
  node : List N → Option (Node A)
  root : node [] = some .dir
  parent : ∀ key name, node (key ++ [name]) ≠ none → node key = some .dir

variable {N A : Type}

namespace Tree

variable {t : Tree N A} {key k src dst : List N} {content : A}

/-- All that stands above a node is a directory. -/
theorem dir_above (h : t.node (key ++ k) ≠ none) (hk : k ≠ []) : t.node key = some .dir := by
  induction k generalizing key with
  | nil => exact absurd rfl hk
  | cons name k ih =>
    rw [List.append_cons] at h
    apply t.parent key name
    cases k with
    | nil => simpa using h
    | cons name' k =>
      rw [ih h (List.cons_ne_nil _ _)]
      exact Option.some_ne_none _

/-- All that leads to a node is there. -/
theorem found_above (h : t.node key ≠ none) (hk : k <+: key) : t.node k ≠ none := by
  obtain ⟨rest, rfl⟩ := hk
  cases rest with
  | nil => simpa using h
  | cons name rest =>
    rw [dir_above h (List.cons_ne_nil _ _)]
    exact Option.some_ne_none _

/-- Something other than a directory can be put under the path. -/
structure Room (t : Tree N A) (key : List N) : Prop where
  place : ∃ k name, key = k ++ [name] ∧ t.node k = some .dir
  free : t.node key ≠ some .dir

theorem room_of_file (h : t.node key = some (.file content)) : t.Room key := by
  constructor
  · have hne : key ≠ [] := by
      rintro rfl
      rw [t.root] at h
      cases h
    have hkey := (List.dropLast_concat_getLast hne).symm
    refine ⟨_, _, hkey, t.parent _ (key.getLast hne) ?_⟩
    rw [← hkey, h]
    exact Option.some_ne_none _
  · rw [h]
    simp

theorem room_of_place (hk : t.node k = some .dir) {name : N} (h : t.node (k ++ [name]) = none) :
    t.Room (k ++ [name]) :=
  ⟨⟨k, name, rfl, hk⟩, by simp [h]⟩

theorem Room.ne_nil (h : t.Room key) : key ≠ [] := by
  obtain ⟨k, name, rfl, -⟩ := h.place
  simp

/-- Nothing changed but that directories were added. -/
def AddsDirs (t t' : Tree N A) : Prop :=
  ∀ key, t'.node key = t.node key ∨ t.node key = none ∧ t'.node key = some .dir

theorem AddsDirs.refl (t : Tree N A) : t.AddsDirs t := fun _ => .inl rfl

theorem AddsDirs.trans {t' t'' : Tree N A} (h : t.AddsDirs t') (h' : t'.AddsDirs t'') :
    t.AddsDirs t'' := by
  intro key
  rcases h' key with he | ⟨hnone, hdir⟩
  · rw [he]
    exact h key
  · rcases h key with he | ⟨-, hdir'⟩
    · exact .inr ⟨he ▸ hnone, hdir⟩
    · rw [hnone] at hdir'
      cases hdir'

theorem AddsDirs.file_iff {t' : Tree N A} (h : t.AddsDirs t') :
    t'.node key = some (.file content) ↔ t.node key = some (.file content) := by
  rcases h key with he | ⟨hnone, hdir⟩
  · rw [he]
  · rw [hnone, hdir]
    simp

theorem AddsDirs.found {t' : Tree N A} (h : t.AddsDirs t') {x : Node A}
    (hx : t.node key = some x) : t'.node key = some x := by
  rcases h key with he | ⟨hnone, -⟩
  · rw [he, hx]
  · rw [hx] at hnone
    cases hnone

section Updates

variable [DecidableEq N]

/-- Create a file or a directory, or replace the content of a file. -/
def put (t : Tree N A) (key : List N) (x : Node A) (h : t.Room key) : Tree N A where
  node k := if k = key then some x else t.node k
  root := by
    rw [if_neg h.ne_nil.symm, t.root]
  parent k name hk := by
    have hdir : t.node k = some .dir := by
      split at hk
      · next he =>
        obtain ⟨k', name', rfl, hdir⟩ := h.place
        rw [(List.append_inj' he rfl).1]
        exact hdir
      · exact t.parent k name hk
    have hne : k ≠ key := by
      rintro rfl
      exact h.free hdir
    rw [if_neg hne, hdir]

@[simp] theorem put_self (x : Node A) (h : t.Room key) : (t.put key x h).node key = some x :=
  if_pos rfl

theorem put_other (x : Node A) (h : t.Room key) (hne : k ≠ key) :
    (t.put key x h).node k = t.node k :=
  if_neg hne

theorem addsDirs_put (h : t.Room key) (hnone : t.node key = none) :
    t.AddsDirs (t.put key .dir h) := by
  intro k
  by_cases hk : k = key
  · rw [hk, put_self]
    exact .inr ⟨hnone, rfl⟩
  · exact .inl (put_other _ h hk)

/-- Remove a file. -/
def remove (t : Tree N A) (key : List N) (h : t.node key ≠ some .dir) : Tree N A where
  node k := if k = key then none else t.node k
  root := by
    have hne : [] ≠ key := by
      rintro rfl
      exact h t.root
    rw [if_neg hne, t.root]
  parent k name hk := by
    split at hk
    · exact absurd rfl hk
    · have hdir := t.parent k name hk
      have hne : k ≠ key := by
        rintro rfl
        exact h hdir
      rw [if_neg hne, hdir]

theorem remove_other (h : t.node key ≠ some .dir) (hne : k ≠ key) :
    (t.remove key h).node k = t.node k :=
  if_neg hne

/-- What `rename` asks for: `dst` is not below `src`, and if it is there, it is replaced by
something of its kind and has nothing in it. -/
structure Movable (t : Tree N A) (src dst : List N) : Prop where
  found : t.node src ≠ none
  inner : src ≠ []
  apart : ¬ src <+: dst
  place : ∃ k name, dst = k ++ [name] ∧ t.node k = some .dir
  kind : t.node dst ≠ none → (t.node dst = some .dir ↔ t.node src = some .dir)
  empty : ∀ name, t.node (dst ++ [name]) = none

/-- Move a file, or a directory with all that is in it. -/
def move (t : Tree N A) (src dst : List N) (h : t.Movable src dst) : Tree N A where
  node k :=
    if dst <+: k then t.node (src ++ k.drop dst.length)
    else if src <+: k then none
    else t.node k
  root := by
    have hdst : ¬ dst <+: [] := by
      obtain ⟨k, name, rfl, -⟩ := h.place
      simp
    have hsrc : ¬ src <+: [] := by
      simpa using h.inner
    rw [if_neg hdst, if_neg hsrc, t.root]
  parent k name hk := by
    by_cases hin : dst <+: k
    · obtain ⟨rest, rfl⟩ := hin
      rw [if_pos (List.prefix_append dst rest), List.drop_left]
      rw [List.append_assoc, if_pos (List.prefix_append dst _), List.drop_left,
        ← List.append_assoc] at hk
      exact t.parent _ name hk
    · rw [if_neg hin]
      by_cases hdst : dst <+: k ++ [name]
      · -- the node is the one that was moved
        have he : dst = k ++ [name] := by
          rcases List.prefix_concat_iff.mp hdst with he | hpre
          · exact he
          · exact absurd hpre hin
        have hsrc : ¬ src <+: k := by
          intro hpre
          apply h.apart
          rw [he]
          exact hpre.trans (List.prefix_append k [name])
        obtain ⟨k', name', he', hdir⟩ := h.place
        rw [if_neg hsrc, (List.append_inj' (he.symm.trans he') rfl).1]
        exact hdir
      · rw [if_neg hdst] at hk
        split at hk
        · exact absurd rfl hk
        · next hsrc =>
          have hsrc' : ¬ src <+: k := fun hpre => hsrc (hpre.trans (List.prefix_append k [name]))
          rw [if_neg hsrc']
          exact t.parent k name hk

theorem move_other (h : t.Movable src dst) (hsrc : ¬ src <+: k) (hdst : ¬ dst <+: k) :
    (t.move src dst h).node k = t.node k := by
  simp only [move]
  rw [if_neg hdst, if_neg hsrc]

theorem move_none (h : t.Movable src dst) (hk : t.node k = none) (hdst : ¬ dst <+: k) :
    (t.move src dst h).node k = none := by
  simp only [move]
  rw [if_neg hdst, hk]
  split <;> rfl

end Updates

/-- There is nothing below the place something is moved to. -/
theorem Movable.nothing_below (h : t.Movable src dst) (hk : t.node k ≠ none) (hdst : dst <+: k) :
    k = dst := by
  obtain ⟨rest, rfl⟩ := hdst
  cases rest with
  | nil => simp
  | cons name rest =>
    have hpre : dst ++ [name] <+: dst ++ name :: rest := by simp
    exact absurd (h.empty name) (found_above hk hpre)

/-- A directory with nothing in it. -/
def empty : Tree N A where
  node
    | [] => some .dir
    | _ :: _ => none
  root := rfl
  parent k name h := by
    cases k with
    | nil => rfl
    | cons name' k => exact absurd rfl h

end Tree

end FileTree
