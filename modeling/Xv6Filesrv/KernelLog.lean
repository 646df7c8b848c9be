import Mathlib.Data.List.Basic
import Mathlib.Logic.Function.Basic
import Xv6Filesrv.KernelFreeze

/-!
# The log of the file system

`kernel/log.c` with the disk and the buffers it works on.  Operations bracketed by `begin_op` and
`end_op` change blocks in the buffer cache and record their numbers; the last one to end copies the
blocks to the log, writes the header, installs the blocks at their home locations and erases the
header.  A step ends at every write to the disk, so that a crash can come between any two of them,
also while `recover_from_log` runs; a block that nobody has pinned may leave the cache at any time.
Sleeping in `begin_op` is waiting for a step that can be taken.
-/

namespace KernelLog

open KernelShm (Slot)
open KernelFreeze (Log Panic logblocks)

/-! ## Blocks -/

abbrev bsize : Nat := 1024

abbrev Block := Fin bsize → UInt8

abbrev Disk := Nat → Block

def byteAt (b : Block) (i : Nat) : UInt8 := if h : i < bsize then b ⟨i, h⟩ else 0

/-- The `uint` at index `i`. -/
def word (b : Block) (i : Nat) : Nat :=
  (byteAt b (4 * i)).toNat + (byteAt b (4 * i + 1)).toNat * 256 +
    (byteAt b (4 * i + 2)).toNat * 65536 + (byteAt b (4 * i + 3)).toNat * 16777216

def setWord (b : Block) (i w : Nat) : Block := fun j =>
  if j.val / 4 = i then UInt8.ofNat (w / 256 ^ (j.val % 4)) else b j

/-- A `uint` read as an `int`. -/
def toInt (w : Nat) : Int := if w < 2 ^ 31 then w else w - 2 ^ 32

theorem byteAt_setWord (b : Block) (i j k : Nat) (w : Nat) (hk : k < 4) (hj : j < 256) :
    byteAt (setWord b i w) (4 * j + k) =
      if j = i then UInt8.ofNat (w / 256 ^ k) else byteAt b (4 * j + k) := by
  have hlt : 4 * j + k < bsize := by simp only [bsize]; omega
  have hdiv : (4 * j + k) / 4 = j := by omega
  have hmod : (4 * j + k) % 4 = k := by omega
  simp only [byteAt, dif_pos hlt, setWord, hdiv, hmod]

theorem word_setWord_same (b : Block) (i w : Nat) (hi : i < 256) :
    word (setWord b i w) i = w % 2 ^ 32 := by
  have h₀ := byteAt_setWord b i i 0 w (by omega) hi
  have h₁ := byteAt_setWord b i i 1 w (by omega) hi
  have h₂ := byteAt_setWord b i i 2 w (by omega) hi
  have h₃ := byteAt_setWord b i i 3 w (by omega) hi
  rw [if_pos rfl] at h₀ h₁ h₂ h₃
  rw [Nat.add_zero] at h₀
  simp only [word, h₀, h₁, h₂, h₃, UInt8.toNat_ofNat']
  omega

theorem word_setWord_other (b : Block) {i j : Nat} (w : Nat) (h : j ≠ i) (hj : j < 256) :
    word (setWord b i w) j = word b j := by
  have h₀ := byteAt_setWord b i j 0 w (by omega) hj
  have h₁ := byteAt_setWord b i j 1 w (by omega) hj
  have h₂ := byteAt_setWord b i j 2 w (by omega) hj
  have h₃ := byteAt_setWord b i j 3 w (by omega) hj
  rw [if_neg h] at h₀ h₁ h₂ h₃
  rw [Nat.add_zero] at h₀
  simp only [word, h₀, h₁, h₂, h₃]

/-! ## The header -/

/-- The entries of a header block; those of a header with too many would not fit `log.lh`. -/
def readHead (hb : Block) : Option (List Nat) :=
  let n := toInt (word hb 0)
  if logblocks < n then none else some ((List.range n.toNat).map fun i => word hb (i + 1))

/-- The header's buffer after `write_head`: what lies behind the first entries stays. -/
def writeHead (hb : Block) (blocks : List Nat) : Block :=
  (blocks.zipIdx 1).foldl (fun hb x => setWord hb x.2 x.1) (setWord hb 0 blocks.length)

/-- The loop of `write_head` leaves the entries in their places. -/
theorem word_entries (hb : Block) (blocks : List Nat) (k j : Nat) (hlen : k + blocks.length ≤ 256)
    (hj : j < 256) :
    word ((blocks.zipIdx k).foldl (fun hb x => setWord hb x.2 x.1) hb) j =
      if h : k ≤ j ∧ j < k + blocks.length then
        blocks.get ⟨j - k, by omega⟩ % 2 ^ 32
      else word hb j := by
  induction blocks generalizing hb k with
  | nil =>
    rw [dif_neg (by simp only [List.length_nil]; omega)]
    rfl
  | cons b blocks ih =>
    simp only [List.length_cons] at hlen
    rw [List.zipIdx_cons, List.foldl_cons, ih _ (k + 1) (by omega)]
    by_cases hk : j = k
    · subst hk
      rw [dif_neg (by omega), dif_pos (by simp only [List.length_cons]; omega),
        word_setWord_same _ _ _ hj]
      simp
    · by_cases hin : k + 1 ≤ j ∧ j < k + 1 + blocks.length
      · rw [dif_pos hin, dif_pos (by simp only [List.length_cons]; omega)]
        obtain ⟨d, hd⟩ : ∃ d, j - k = d + 1 := ⟨j - k - 1, by omega⟩
        have hd' : j - (k + 1) = d := by omega
        simp only [List.get_eq_getElem, hd, hd', List.getElem_cons_succ]
      · rw [dif_neg hin, dif_neg (by simp only [List.length_cons]; omega),
          word_setWord_other _ _ hk hj]

/-- Every entry is a block number of 31 bits. -/
def Entries (blocks : List Nat) : Prop := blocks.length ≤ 30 ∧ ∀ b ∈ blocks, b < 2 ^ 31

/-- A header reads back as it was written. -/
theorem readHead_writeHead (hb : Block) {blocks : List Nat} (h : Entries blocks) :
    readHead (writeHead hb blocks) = some blocks := by
  obtain ⟨hlen, hsmall⟩ := h
  have hzero : word (writeHead hb blocks) 0 = blocks.length := by
    rw [writeHead, word_entries _ _ _ _ (by omega) (by omega), dif_neg (by omega),
      word_setWord_same _ _ _ (by omega)]
    omega
  have hn : toInt (blocks.length : Nat) = blocks.length := if_pos (by omega)
  have hfits : ¬ logblocks < (blocks.length : Int) := by
    simp only [logblocks]
    omega
  rw [readHead, hzero, hn]
  simp only [if_neg hfits, Int.toNat_natCast, Option.some.injEq]
  apply List.ext_getElem
  · rw [List.length_map, List.length_range]
  · intro i _ hi
    have hentry := hsmall _ (List.getElem_mem hi)
    rw [List.getElem_map, List.getElem_range, writeHead,
      word_entries _ _ _ _ (by omega) (by omega), dif_pos (by omega)]
    simp only [List.get_eq_getElem, Nat.add_sub_cancel]
    omega

/-! ## The machine -/

/-- Where `commit` is. -/
inductive Commit where
  | writeLog (tail : Nat)
  | writeHead
  | install (tail : Nat)
  | clear
  | done
  deriving DecidableEq

/-- Where a process is.  Inside of an operation it has logged its `own` blocks, which nothing but
the budget of a run asks for. -/
inductive Phase where
  | outside
  | inside (own : List Nat)
  | committing (pc : Commit)
  deriving DecidableEq

/-- Where `recover_from_log` is. -/
inductive Boot where
  | readHead
  | install (tail : Nat)
  | clear
  deriving DecidableEq

structure System where
  disk : Disk
  /-- the blocks that have a valid buffer -/
  cache : Nat → Option Block
  /-- how often a buffer is pinned -/
  pins : Nat → Nat
  log : Log
  phase : Slot → Phase
  /-- what the start of the system has still to do -/
  boot : Option Boot

namespace System

/-- The contents of the buffer that `bread` returns. -/
def bread (s : System) (b : Nat) : Block := (s.cache b).getD (s.disk b)

def setBuf (s : System) (b : Nat) (d : Block) : System :=
  { s with cache := Function.update s.cache b (some d) }

/-- `bwrite` of a buffer with contents `d`. -/
def bwrite (s : System) (b : Nat) (d : Block) : System :=
  { s.setBuf b d with disk := Function.update s.disk b d }

def bpin (s : System) (b : Nat) : System :=
  { s with pins := Function.update s.pins b (s.pins b + 1) }

def bunpin (s : System) (b : Nat) : System :=
  { s with pins := Function.update s.pins b (s.pins b - 1) }

def enter (s : System) (p : Slot) (x : Phase) : System :=
  { s with phase := Function.update s.phase p x }

def setLog (s : System) (l : Log) : System := { s with log := l }

def setBoot (s : System) (b : Option Boot) : System := { s with boot := b }

end System

/-- `begin_op`, where it does not go to sleep. -/
def beginOp (s : System) (p : Slot) : Option System :=
  if s.log.committing then none
  else if s.log.full then none
  else some ((s.setLog { s.log with outstanding := s.log.outstanding + 1 }).enter p (.inside []))

/-- A process that has changed the contents of a buffer to `d` calls `log_write`. -/
def logWrite (s : System) (p : Slot) (own : List Nat) (b : Nat) (d : Block) :
    Except Panic System :=
  if logblocks ≤ s.log.blocks.length then .error .tooBig
  else if s.log.outstanding < 1 then .error .outsideTrans
  else if b ∈ s.log.blocks then .ok ((s.setBuf b d).enter p (.inside (own.insert b)))
  else .ok ((((s.setBuf b d).bpin b).setLog
    { s.log with blocks := s.log.blocks ++ [b] }).enter p (.inside (own.insert b)))

/-- `end_op` up to `commit`, which does nothing if nothing was logged. -/
def endOp (s : System) (p : Slot) : Except Panic System :=
  let l := { s.log with outstanding := s.log.outstanding - 1 }
  if l.committing then .error .logCommitting
  else if l.outstanding = 0 then
    .ok ((s.setLog { l with committing := true }).enter p
      (.committing (if l.blocks = [] then .done else .writeLog 0)))
  else .ok ((s.setLog l).enter p .outside)

/-- The next buffer that `commit` writes, or the end of `end_op`. -/
def commit (start : Nat) (s : System) (p : Slot) : Commit → Option System
  | .writeLog tail =>
    match s.log.blocks[tail]? with
    | some b => some ((s.bwrite (start + tail + 1) (s.bread b)).enter p
        (.committing (.writeLog (tail + 1))))
    | none => some (s.enter p (.committing .writeHead))
  | .writeHead =>
    some ((s.bwrite start (writeHead (s.bread start) s.log.blocks)).enter p
      (.committing (.install 0)))
  | .install tail =>
    match s.log.blocks[tail]? with
    | some b => some (((s.bwrite b (s.bread (start + tail + 1))).bunpin b).enter p
        (.committing (.install (tail + 1))))
    | none => some (s.enter p (.committing .clear))
  | .clear =>
    some (((s.setLog { s.log with blocks := [] }).bwrite start
      (writeHead (s.bread start) [])).enter p (.committing .done))
  | .done => some ((s.setLog { s.log with committing := false }).enter p .outside)

/-- The next step of `recover_from_log`. -/
def recover (start : Nat) (s : System) : Boot → Option System
  | .readHead =>
    (readHead (s.bread start)).map fun blocks =>
      (s.setLog { s.log with blocks := blocks }).setBoot (some (.install 0))
  | .install tail =>
    match s.log.blocks[tail]? with
    | some b =>
      some ((s.bwrite b (s.bread (start + tail + 1))).setBoot (some (.install (tail + 1))))
    | none => some (s.setBoot (some .clear))
  | .clear =>
    some (((s.setLog { s.log with blocks := [] }).bwrite start
      (writeHead (s.bread start) [])).setBoot none)

/-- All that was in memory is lost. -/
def crash (s : System) : System where
  disk := s.disk
  cache _ := none
  pins _ := 0
  log := ⟨0, false, []⟩
  phase _ := .outside
  boot := some .readHead

/-- The blocks of the file system, outside of the log. -/
def Home (start b : Nat) : Prop := (b < start ∨ start + 30 < b) ∧ b < 2 ^ 31

instance (start b : Nat) : Decidable (Home start b) := inferInstanceAs (Decidable (_ ∧ _))

inductive Action where
  | beginOp (p : Slot)
  | write (p : Slot) (b : Nat) (d : Block)
  | endOp (p : Slot)
  | commit (p : Slot)
  | boot
  | load (b : Nat)
  | evict (b : Nat)
  | crash

/-- What an action does where it can be taken.  The file system logs its own blocks only. -/
def act (start : Nat) (s : System) : Action → Option (Except Panic System)
  | .beginOp p =>
    if s.boot = none ∧ s.phase p = .outside then (beginOp s p).map .ok else none
  | .write p b d =>
    match s.phase p with
    | .inside own => if Home start b then some (logWrite s p own b d) else none
    | _ => none
  | .endOp p =>
    match s.phase p with
    | .inside _ => some (endOp s p)
    | _ => none
  | .commit p =>
    match s.phase p with
    | .committing pc => (commit start s p pc).map .ok
    | _ => none
  | .boot => s.boot.bind fun b => (recover start s b).map .ok
  | .load b => some (.ok (s.setBuf b (s.bread b)))
  | .evict b =>
    if s.pins b = 0 then some (.ok { s with cache := Function.update s.cache b none }) else none
  | .crash => some (.ok (crash s))

end KernelLog
