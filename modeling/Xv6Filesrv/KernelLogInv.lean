import Mathlib.Data.Fintype.Card
import Mathlib.Data.Finset.Card
import Xv6Filesrv.KernelLog

/-!
# What a crash leaves

At every moment the disk is recoverable: if the machine stops, `recover_from_log` finds the
contents that all blocks had at one earlier moment.
-/

namespace KernelLog

open KernelShm (Slot)
open Function (update update_of_ne update_self)

variable {start : Nat} {s s' : System} {p q : Slot} {d : Disk} {blocks : List Nat} {durable : Disk}
  {pc : Commit} {b : Nat} {dirty : List Nat}

/-! ## Recovery of a disk -/

/-- `install_trans` from entry `tail` on. -/
def installTrans (start : Nat) (d : Disk) : Nat → List Nat → Disk
  | _, [] => d
  | tail, b :: blocks =>
    installTrans start (update d b (d (start + tail + 1))) (tail + 1) blocks

/-- The disk after a whole run of `recover_from_log`. -/
def recoverFromLog (start : Nat) (d : Disk) : Option Disk :=
  (readHead (d start)).map fun blocks =>
    let d' := installTrans start d 0 blocks
    update d' start (writeHead (d' start) [])

/-- Different blocks of the file system. -/
structure Logged (start : Nat) (blocks : List Nat) : Prop where
  nodup : blocks.Nodup
  home : ∀ b ∈ blocks, Home start b
  length : blocks.length ≤ 30

theorem Logged.entries (h : Logged start blocks) : Entries blocks :=
  ⟨h.length, fun b hb => (h.home b hb).2⟩

theorem Logged.nil : Logged start [] :=
  ⟨List.nodup_nil, fun _ hb => absurd hb List.not_mem_nil, Nat.zero_le _⟩

theorem Logged.place (h : Logged start blocks) {i b : Nat} (hi : blocks[i]? = some b) :
    b ≠ start + i + 1 ∧ i < 30 ∧ b ∈ blocks := by
  have hmem := List.mem_of_getElem? hi
  have hlt : i < blocks.length := (List.getElem?_eq_some_iff.mp hi).1
  have hlen := h.length
  have hhome := (h.home b hmem).1
  exact ⟨by omega, by omega, hmem⟩

theorem home_ne_start (h : Home start b) : b ≠ start := by
  have := h.1
  omega

/-- The blocks of the log and blocks that are not installed stay. -/
theorem installTrans_other (hhome : ∀ b ∈ blocks, Home start b) (tail : Nat) {a : Nat}
    (ha : a ∉ blocks) : installTrans start d tail blocks a = d a := by
  induction blocks generalizing d tail with
  | nil => rfl
  | cons b blocks ih =>
    rw [List.mem_cons, not_or] at ha
    rw [installTrans, ih (fun b' hb' => hhome b' (List.mem_cons_of_mem b hb')) _ ha.2,
      update_of_ne ha.1]

theorem installTrans_self (h : Logged start blocks) (tail : Nat) (htail : tail + blocks.length ≤ 30)
    {i b : Nat} (hi : blocks[i]? = some b) :
    installTrans start d tail blocks b = d (start + (tail + i) + 1) := by
  induction blocks generalizing d tail i with
  | nil => cases hi
  | cons b' blocks ih =>
    have hnodup := List.nodup_cons.mp h.nodup
    have hlen := h.length
    rw [List.length_cons] at hlen
    have hrest : Logged start blocks :=
      ⟨hnodup.2, fun a ha => h.home a (List.mem_cons_of_mem b' ha), by omega⟩
    simp only [List.length_cons] at htail
    rw [installTrans]
    cases i with
    | zero =>
      obtain rfl : b' = b := by simpa using hi
      rw [installTrans_other hrest.home _ hnodup.1, update_self]
      rfl
    | succ i =>
      have hi' : blocks[i]? = some b := by simpa using hi
      have hlt : i < blocks.length := (List.getElem?_eq_some_iff.mp hi').1
      have hhome := (h.home b' List.mem_cons_self).1
      have hne : start + (tail + 1 + i) + 1 ≠ b' := by omega
      rw [ih hrest (tail + 1) (by omega) hi', update_of_ne hne]
      congr 1
      omega

/-- The header names blocks whose new contents are in the log; the others are in their places. -/
structure Recoverable (start : Nat) (d durable : Disk) (blocks : List Nat) : Prop where
  header : readHead (d start) = some blocks
  logged : Logged start blocks
  copies : ∀ i b, blocks[i]? = some b → d (start + i + 1) = durable b
  others : ∀ b, Home start b → b ∉ blocks → d b = durable b

/-- With an empty header everything is in its place. -/
theorem Recoverable.erased (header : readHead (d start) = some [])
    (others : ∀ b, Home start b → d b = durable b) : Recoverable start d durable [] := by
  refine ⟨header, .nil, fun i b hb => ?_, fun b hb _ => others b hb⟩
  rw [List.getElem?_nil] at hb
  cases hb

/-- With an empty header a block of the log is free to be written. -/
theorem Recoverable.write_slot (h : Recoverable start d durable []) (x : Block) {i : Nat}
    (hi : i < 30) :
    Recoverable start (update d (start + i + 1) x) durable [] := by
  refine .erased ?_ fun b hb => ?_
  · rw [update_of_ne (by omega)]
    exact h.header
  · have := hb.1
    rw [update_of_ne (by omega)]
    exact h.others b hb List.not_mem_nil

/-- A block that the header names may have anything in its place. -/
theorem Recoverable.write_home (h : Recoverable start d durable blocks) (x : Block)
    (hb : b ∈ blocks) : Recoverable start (update d b x) durable blocks := by
  have hhome := h.logged.home b hb
  refine ⟨?_, h.logged, fun i a ha => ?_, fun a ha hnot => ?_⟩
  · rw [update_of_ne (home_ne_start hhome).symm]
    exact h.header
  · have hi := (h.logged.place ha).2.1
    have := hhome.1
    rw [update_of_ne (by omega)]
    exact h.copies i a ha
  · rw [update_of_ne (fun hab : a = b => hnot (hab ▸ hb))]
    exact h.others a ha hnot

/-- Once everything is in its place the header can go. -/
theorem Recoverable.erase (x : Block) (h : ∀ b, Home start b → d b = durable b) :
    Recoverable start (update d start (writeHead x [])) durable [] := by
  refine .erased ?_ fun b hb => ?_
  · rw [update_self]
    exact readHead_writeHead _ ⟨Nat.zero_le _, fun b hb => absurd hb List.not_mem_nil⟩
  · rw [update_of_ne (home_ne_start hb)]
    exact h b hb

/-- Recovery finds the contents that are durable. -/
theorem Recoverable.recovers (h : Recoverable start d durable blocks) :
    ∃ d', recoverFromLog start d = some d' ∧ ∀ b, Home start b → d' b = durable b := by
  refine ⟨_, by rw [recoverFromLog, h.header]; rfl, fun b hb => ?_⟩
  have hlen := h.logged.length
  simp only [update_of_ne (home_ne_start hb)]
  by_cases hmem : b ∈ blocks
  · obtain ⟨i, hi⟩ := List.mem_iff_getElem?.mp hmem
    rw [installTrans_self h.logged 0 (by omega) hi, Nat.zero_add]
    exact h.copies i b hi
  · rw [installTrans_other h.logged.home 0 hmem]
    exact h.others b hb hmem

/-! ## What operations mean -/

/-- What a run tells about the operations. -/
inductive Event where
  | began (p : Slot)
  | wrote (b : Nat) (d : Block)
  | ended (p : Slot)
  | committed
  | crashed

/-- The contents that a crash leaves, those that the operations see, and who is inside of one. -/
structure Content where
  durable : Disk
  current : Disk
  busy : Slot → Bool

def Content.step (c : Content) : Event → Content
  | .began p => { c with busy := update c.busy p true }
  | .wrote b d => { c with current := update c.current b d }
  | .ended p => { c with busy := update c.busy p false }
  | .committed => { c with durable := c.current }
  | .crashed => { c with current := c.durable, busy := fun _ => false }

/-- The contents after some events on a disk. -/
def contentOf (d : Disk) (es : List Event) : Content := es.foldl Content.step ⟨d, d, fun _ => false⟩

def event (s : System) : Action → Option Event
  | .beginOp p => some (.began p)
  | .write _ b d => some (.wrote b d)
  | .endOp p => some (.ended p)
  | .commit p => if s.phase p = .committing .writeHead then some .committed else none
  | .crash => some .crashed
  | _ => none

/-- The system as it is switched on. -/
def powerOn (d : Disk) : System :=
  crash ⟨d, fun _ => none, fun _ => 0, ⟨0, false, []⟩, fun _ => .outside, none⟩

/-- The states that runs come to, and the events on the way. -/
inductive History (start : Nat) (d : Disk) : List Event → System → Prop
  | powerOn : History start d [] (powerOn d)
  | step {es : List Event} {s s' : System} {a : Action} (h : History start d es s)
      (ha : act start s a = some (.ok s')) : History start d (es ++ (event s a).toList) s'

/-! ## The invariant -/

def Phase.isInside : Phase → Bool
  | .inside _ => true
  | _ => false

def insiders (s : System) : Finset Slot := Finset.univ.filter fun p => (s.phase p).isInside = true

/-- No process is in `commit`. -/
def Idle (s : System) : Prop := ∀ p pc, s.phase p ≠ .committing pc

/-- One process is in `commit`, and no other one in an operation. -/
def Alone (s : System) (p : Slot) (pc : Commit) : Prop :=
  s.phase p = .committing pc ∧ ∀ q, q ≠ p → s.phase q = .outside

/-- A block that differs from the disk is pinned, and is one of `dirty`. -/
structure Cached (s : System) (dirty : List Nat) : Prop where
  clean : ∀ b, b ∉ dirty → s.bread b = s.disk b
  pinned : ∀ b ∈ dirty, 0 < s.pins b

/-- The states of the disk and the buffers, by where `commit` is. -/
inductive Stage (start : Nat) (c : Content) (s : System) : Commit → Prop
  | writeLog {tail : Nat} (hd : Recoverable start s.disk c.durable [])
      (hc : Cached s s.log.blocks)
      (hcopied : ∀ i b, i < tail → s.log.blocks[i]? = some b → s.disk (start + i + 1) = s.bread b) :
      Stage start c s (.writeLog tail)
  | writeHead (hd : Recoverable start s.disk c.durable []) (hc : Cached s s.log.blocks)
      (hcopied : ∀ i b, s.log.blocks[i]? = some b → s.disk (start + i + 1) = s.bread b) :
      Stage start c s .writeHead
  | install {tail : Nat} (hd : Recoverable start s.disk c.durable s.log.blocks)
      (hc : Cached s (s.log.blocks.drop tail))
      (hsame : ∀ b, Home start b → c.durable b = c.current b) : Stage start c s (.install tail)
  | clear (hd : Recoverable start s.disk c.durable s.log.blocks) (hc : Cached s [])
      (hsame : ∀ b, Home start b → c.durable b = c.current b) : Stage start c s .clear
  | done (hd : Recoverable start s.disk c.durable []) (hc : Cached s [])
      (hb : s.log.blocks = []) : Stage start c s .done

/-- The states of a system that is up. -/
inductive Up (start : Nat) (c : Content) (s : System) : Prop
  | idle (h : Idle s) (hl : s.log.committing = false)
      (hd : Recoverable start s.disk c.durable []) (hc : Cached s s.log.blocks)
      (hrest : (∀ p, s.phase p = .outside) → s.log.blocks = [])
  | commit (p : Slot) (pc : Commit) (h : Alone s p pc) (hl : s.log.committing = true)
      (hs : Stage start c s pc)

/-- The states of a system that is starting. -/
inductive Starting (start : Nat) (c : Content) (s : System) : Boot → Prop
  | readHead {blocks : List Nat} (hd : Recoverable start s.disk c.durable blocks) :
      Starting start c s .readHead
  | install {tail : Nat} (hd : Recoverable start s.disk c.durable s.log.blocks)
      (hin : ∀ i b, i < tail → s.log.blocks[i]? = some b → s.disk b = c.durable b) :
      Starting start c s (.install tail)
  | clear (hd : Recoverable start s.disk c.durable s.log.blocks)
      (hin : ∀ b ∈ s.log.blocks, s.disk b = c.durable b) : Starting start c s .clear

structure Inv (start : Nat) (c : Content) (s : System) : Prop where
  busy : ∀ p, c.busy p = (s.phase p).isInside
  count : s.log.outstanding = (insiders s).card
  logged : Logged start s.log.blocks
  up : s.boot = none → Up start c s ∧ ∀ b, Home start b → s.bread b = c.current b
  starting : ∀ b, s.boot = some b → Starting start c s b ∧ (∀ a, s.bread a = s.disk a) ∧
    (∀ p, s.phase p = .outside) ∧ s.log.committing = false ∧ ∀ b, c.current b = c.durable b

variable {c : Content}

theorem Stage.recoverable (h : Stage start c s pc) :
    ∃ blocks, Recoverable start s.disk c.durable blocks := by
  cases h with
  | writeLog hd _ _ | writeHead hd _ _ | install hd _ _ | clear hd _ _ | done hd _ _ =>
    exact ⟨_, hd⟩

theorem Up.recoverable (h : Up start c s) :
    ∃ blocks, Recoverable start s.disk c.durable blocks := by
  cases h with
  | idle _ _ hd _ _ => exact ⟨_, hd⟩
  | commit _ _ _ _ hs => exact hs.recoverable

theorem Starting.recoverable {b : Boot} (h : Starting start c s b) :
    ∃ blocks, Recoverable start s.disk c.durable blocks := by
  cases h with
  | readHead hd | install hd _ | clear hd _ => exact ⟨_, hd⟩

/-- The disk can be recovered at every moment. -/
theorem Inv.recoverable (h : Inv start c s) :
    ∃ blocks, Recoverable start s.disk c.durable blocks := by
  cases hb : s.boot with
  | none => exact (h.up hb).1.recoverable
  | some b => exact (h.starting b hb).1.recoverable

/-! ## Buffers -/

theorem bread_setBuf (s : System) (b a : Nat) (d : Block) :
    (s.setBuf b d).bread a = if a = b then d else s.bread a := by
  by_cases h : a = b
  · subst h
    simp only [System.bread, System.setBuf, update_self, Option.getD_some, if_pos]
  · simp only [System.bread, System.setBuf, update_of_ne h, if_neg h]

theorem bread_bwrite (s : System) (b a : Nat) (d : Block) :
    (s.bwrite b d).bread a = if a = b then d else s.bread a := by
  by_cases h : a = b
  · subst h
    simp only [System.bread, System.bwrite, System.setBuf, update_self, Option.getD_some,
      if_pos]
  · simp only [System.bread, System.bwrite, System.setBuf, update_of_ne h, if_neg h]

theorem bread_bwrite_of_ne (s : System) {b a : Nat} (d : Block) (h : a ≠ b) :
    (s.bwrite b d).bread a = s.bread a := (bread_bwrite s b a d).trans (if_neg h)

/-- A buffer that was clean is clean after a write. -/
theorem bwrite_clean {b a : Nat} {d : Block} (h : a ≠ b → s.bread a = s.disk a) :
    (s.bwrite b d).bread a = (s.bwrite b d).disk a := by
  by_cases hab : a = b
  · subst hab
    rw [bread_bwrite, if_pos rfl]
    exact (update_self a d s.disk).symm
  · rw [bread_bwrite_of_ne s d hab, h hab]
    exact (update_of_ne hab ..).symm

theorem Cached.bwrite (h : Cached s dirty) (b : Nat) (d : Block) :
    Cached (s.bwrite b d) dirty :=
  ⟨fun a hclean => bwrite_clean fun _ => h.clean a hclean, h.pinned⟩

/-! Buffers come and go, but nothing is read otherwise than before. -/

section Recache

variable {x : Nat → Option Block} (hread : ∀ a, ({ s with cache := x }).bread a = s.bread a)
include hread

theorem Cached.recache (h : Cached s dirty) :
    Cached { s with cache := x } dirty :=
  ⟨fun b hb => (hread b).trans (h.clean b hb), h.pinned⟩

theorem Stage.recache (h : Stage start c s pc) :
    Stage start c { s with cache := x } pc := by
  cases h with
  | writeLog hd hc hcopied =>
    exact .writeLog hd (hc.recache hread) fun i b hi hb =>
      (hcopied i b hi hb).trans (hread b).symm
  | writeHead hd hc hcopied =>
    exact .writeHead hd (hc.recache hread) fun i b hb => (hcopied i b hb).trans (hread b).symm
  | install hd hc hsame => exact .install hd (hc.recache hread) hsame
  | clear hd hc hsame => exact .clear hd (hc.recache hread) hsame
  | done hd hc hb => exact .done hd (hc.recache hread) hb

theorem Up.recache (h : Up start c s) : Up start c { s with cache := x } := by
  cases h with
  | idle hi hl hd hc hrest => exact .idle hi hl hd (hc.recache hread) hrest
  | commit p pc ha hl hs => exact .commit p pc ha hl (hs.recache hread)

theorem Inv.recache (h : Inv start c s) : Inv start c { s with cache := x } := by
  refine ⟨h.busy, h.count, h.logged, fun hb => ?_, fun b hb => ?_⟩
  · obtain ⟨hup, hsees⟩ := h.up hb
    exact ⟨hup.recache hread, fun a ha => (hread a).trans (hsees a ha)⟩
  · obtain ⟨hstart, hclean, hrest⟩ := h.starting b hb
    refine ⟨?_, fun a => (hread a).trans (hclean a), hrest⟩
    cases hstart with
    | readHead hd => exact .readHead hd
    | install hd hin => exact .install hd hin
    | clear hd hin => exact .clear hd hin

end Recache

theorem Cached.unpinned (h : Cached s dirty) (hb : s.pins b = 0) :
    s.bread b = s.disk b := by
  apply h.clean
  intro hmem
  have := h.pinned b hmem
  omega

/-- A block that nobody has pinned is as on the disk. -/
theorem Up.unpinned (h : Up start c s) (hb : s.pins b = 0) : s.bread b = s.disk b := by
  cases h with
  | idle _ _ _ hc _ => exact hc.unpinned hb
  | commit _ _ _ _ hs =>
    cases hs with
    | writeLog _ hc _ | writeHead _ hc _ | install _ hc _ | clear _ hc _ | done _ hc _ =>
      exact hc.unpinned hb

theorem Inv.load (h : Inv start c s) (b : Nat) : Inv start c (s.setBuf b (s.bread b)) := by
  refine Inv.recache (fun a => ?_) h
  refine (bread_setBuf s b a _).trans ?_
  split
  · next hab => rw [hab]
  · rfl

theorem Inv.evict (h : Inv start c s) (hb : s.pins b = 0) :
    Inv start c { s with cache := update s.cache b none } := by
  have hclean : s.bread b = s.disk b := by
    cases hboot : s.boot with
    | none => exact (h.up hboot).1.unpinned hb
    | some x => exact (h.starting x hboot).2.1 b
  refine Inv.recache (fun a => ?_) h
  by_cases hab : a = b
  · subst hab
    rw [hclean]
    simp only [System.bread, update_self, Option.getD_none]
  · simp only [System.bread, update_of_ne hab]

end KernelLog
