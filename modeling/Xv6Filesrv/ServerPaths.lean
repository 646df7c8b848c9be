import Xv6Filesrv.ServerResp

/-!
# Paths of the file server

`src/path_utils.c`, and the comparisons of C strings that the server makes.  A C string is the
list of its bytes without the final NUL.
-/

namespace ServerPaths

open ServerResp

def ascii (s : String) : Bytes := s.toList.map fun c => c.toNat.toUInt8

/-- The C string at the beginning of a buffer. -/
def cstr (buf : Bytes) : Bytes := buf.takeWhile (· ≠ 0)

def strcmp : Bytes → Bytes → Int
  | [], [] => 0
  | [], _ :: _ => -1
  | _ :: _, [] => 1
  | a :: s, b :: t => if a = b then strcmp s t else if a < b then -1 else 1

def tolower (c : UInt8) : UInt8 := if 65 ≤ c ∧ c ≤ 90 then c + 32 else c

def strcasecmp (s t : Bytes) : Int := strcmp (s.map tolower) (t.map tolower)

def pathMax : Nat := 4096

/-- `snprintf` into a buffer of `n` bytes, with the test that nothing was cut off. -/
def snprintf (n : Nat) (s : Bytes) : Option Bytes := if n ≤ s.length then none else some s

/-- Whether `strstr(path, "..")` finds something. -/
def hasDotDot : Bytes → Bool
  | 46 :: 46 :: _ => true
  | _ :: s => hasDotDot s
  | [] => false

def isPathSafe (path : Bytes) : Bool :=
  if path = [] then false
  else if path.head? = some 47 then false
  else if hasDotDot path then false
  else true

def pathBuild (dataDir relative : Bytes) (outSz : Nat) : Option Bytes :=
  if !isPathSafe relative then none else snprintf outSz (dataDir ++ 47 :: relative)

/-- What `path_ensure_parent_dirs` passes to `mkdir`: what stands before a slash, except before
one at the very beginning. -/
def parentDirs (filepath : Bytes) : List Bytes :=
  ((List.range filepath.length).filter fun i => 0 < i ∧ filepath[i]? = some 47).map filepath.take

def pathAppendSuffix (path suffix : Bytes) (outSz : Nat) : Option Bytes :=
  snprintf outSz (path ++ suffix)

def pathStripSuffix (path suffix : Bytes) (outSz : Nat) : Option Bytes :=
  let need := path.length - suffix.length
  if path.length ≤ suffix.length ∨ strcmp (path.drop need) suffix ≠ 0 then none
  else if outSz < need + 1 then none
  else some (path.take need)

/-- The components by which the file system finds the file below the data directory. -/
def resolve (relative : Bytes) : List Bytes :=
  (relative.splitOn 47).filter fun c => c ≠ [] ∧ c ≠ [46]

/-- Below a directory come its components and then those of the rest. -/
theorem resolve_append (dir rest : Bytes) :
    resolve (dir ++ 47 :: rest) = resolve dir ++ resolve rest := by
  simp only [resolve, List.splitOn_append_cons_self, List.filter_append]

theorem strcmp_self (s : Bytes) : strcmp s s = 0 := by
  induction s with
  | nil => rfl
  | cons a s ih => rw [strcmp, if_pos rfl, ih]

theorem strcmp_eq_zero {s t : Bytes} (h : strcmp s t = 0) : s = t := by
  induction s generalizing t with
  | nil => cases t <;> simp_all [strcmp]
  | cons a s ih =>
    cases t with
    | nil => cases h
    | cons b t =>
      rw [strcmp] at h
      split at h
      · next hab => rw [hab, ih h]
      · split at h <;> cases h

theorem strcmp_trans {s t u : Bytes} (h₁ : strcmp s t < 0) (h₂ : strcmp t u < 0) :
    strcmp s u < 0 := by
  induction s generalizing t u with
  | nil => cases t <;> cases u <;> simp_all [strcmp]
  | cons a s ih =>
    cases t with
    | nil => simp [strcmp] at h₁
    | cons b t =>
      cases u with
      | nil => simp [strcmp] at h₂
      | cons c u =>
        simp only [strcmp] at h₁ h₂ ⊢
        grind

/-- Of two different strings one comes first. -/
theorem strcmp_swap {s t : Bytes} (h : 0 < strcmp s t) : strcmp t s < 0 := by
  induction s generalizing t with
  | nil => cases t <;> simp [strcmp] at h
  | cons a s ih =>
    cases t with
    | nil => simp [strcmp]
    | cons b t =>
      simp only [strcmp] at h ⊢
      grind

theorem pathBuild_eq {dataDir rel full : Bytes} {n : Nat} (h : pathBuild dataDir rel n = some full) :
    full = dataDir ++ 47 :: rel := by
  unfold pathBuild snprintf at h
  grind

theorem pathBuild_fits {dataDir rel full : Bytes} {n : Nat}
    (h : pathBuild dataDir rel n = some full) : full.length < n := by
  unfold pathBuild snprintf at h
  grind

/-- A text without a slash is added to the last component. -/
theorem splitOn_append_name (s : Bytes) {t : Bytes} (ht : 47 ∉ t) :
    ∃ init last, s.splitOn 47 = init ++ [last] ∧ (s ++ t).splitOn 47 = init ++ [last ++ t] := by
  induction s with
  | nil => exact ⟨[], [], rfl, List.splitOn_eq_singleton ht⟩
  | cons x s ih =>
    obtain ⟨init, last, hs, hst⟩ := ih
    rw [List.cons_append, List.splitOn_cons_eq_if_modifyHead, List.splitOn_cons_eq_if_modifyHead, hs,
      hst]
    split
    · exact ⟨[] :: init, last, rfl, rfl⟩
    · cases init with
      | nil => exact ⟨[], x :: last, rfl, rfl⟩
      | cons c init => exact ⟨(x :: c) :: init, last, rfl, rfl⟩

end ServerPaths
