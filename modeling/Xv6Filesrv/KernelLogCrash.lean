import Mathlib.Algebra.Order.BigOperators.Group.Finset
import Xv6Filesrv.StateWp
import Xv6Filesrv.KernelLogRuns

/-!
# What the log promises

A crash undoes operations, never a part of one; reads see what was written last; and the space that
`begin_op` reserves suffices for operations that log no more than `MAXOPBLOCKS` different blocks,
and nothing after the last of them.
-/

namespace KernelLog

open KernelShm (Slot)
open KernelFreeze (Log logblocks maxopblocks)
open Relation (ReflTransGen)
open Function (update update_of_ne update_self)

variable {start : Nat} {s s' : System} {p q : Slot} {d : Disk} {es : List Event} {c : Content}

/-! ## A disk without files -/

def emptyDisk : Disk := fun _ _ => 0

theorem readHead_emptyDisk : readHead (emptyDisk 2) = some [] := by decide +kernel

/-- The system after its start on an empty disk. -/
def booted : System :=
  ((powerOn emptyDisk).bwrite 2 (writeHead (emptyDisk 2) [])).setBoot none

theorem boot_emptyDisk : act 2 (powerOn emptyDisk) .boot =
    some (.ok ((powerOn emptyDisk).setBoot (some (.install 0)))) := by
  have hhead : readHead ((powerOn emptyDisk).bread 2) = some [] := readHead_emptyDisk
  have hboot : (powerOn emptyDisk).boot = some .readHead := rfl
  simp only [act, hboot, Option.bind_some, recover, hhead, Option.map_some]
  rfl

theorem history_booted : History 2 emptyDisk [] booted := by
  have h₁ : History 2 emptyDisk [] _ := History.powerOn.step boot_emptyDisk
  have h₂ := h₁.step (a := .boot) rfl
  exact h₂.step (a := .boot) rfl

/-- One operation, up to the write of the header. -/
theorem history_header :
    ∃ s, History 2 emptyDisk [.began 0, .wrote 40 fun _ => 7, .ended 0, .committed] s := by
  have h₁ := history_booted.step (a := .beginOp 0) rfl
  have h₂ := h₁.step (a := .write 0 40 fun _ => 7) rfl
  have h₃ := h₂.step (a := .endOp 0) rfl
  have h₄ := h₃.step (a := .commit 0) rfl
  have h₅ := h₄.step (a := .commit 0) rfl
  have h₆ := h₅.step (a := .commit 0) rfl
  exact ⟨_, h₆⟩

/-! ## Crashes -/

theorem Content.durable_step {e : Event} (he : e ≠ .committed) :
    (c.step e).durable = c.durable := by
  cases e with
  | committed => exact absurd rfl he
  | began _ | wrote _ _ | ended _ | crashed => rfl

/-- Nobody is inside of an operation when the header is written. -/
theorem Inv.committed (h : Inv start c s) {a : Action} (ha : act start s a = some (.ok s'))
    (he : event s a = some .committed) (q : Slot) : c.busy q = false := by
  cases a with
  | commit p =>
    simp only [event] at he
    split at he
    · next hp =>
      have hboot : s.boot = none := h.not_booting (p := p) (by simp [hp])
      obtain ⟨halone, _, _⟩ := (h.up hboot).1.committing hp
      rw [h.busy]
      by_cases hq : q = p
      · rw [hq, hp]
        rfl
      · rw [halone.2 q hq]
        rfl
    · cases he
  | beginOp _ | write _ _ _ | endOp _ | crash => cases he
  | boot | load _ | evict _ => cases he

/-- What is durable is what the operations saw at the last write of a header, between operations. -/
theorem History.boundary (hd : readHead (d start) = some []) (h : History start d es s) :
    ∃ es₁ es₂, es = es₁ ++ es₂ ∧ Event.committed ∉ es₂ ∧
      (es₁ = [] ∨ ∃ es₀, es₁ = es₀ ++ [.committed]) ∧ (∀ p, (contentOf d es₁).busy p = false) ∧
      (contentOf d es).durable = (contentOf d es₁).current := by
  induction h with
  | powerOn => exact ⟨[], [], rfl, List.not_mem_nil, .inl rfl, fun _ => rfl, rfl⟩
  | @step es s s' a h ha ih =>
    cases he : event s a with
    | none =>
      rw [Option.toList_none, List.append_nil]
      exact ih
    | some e =>
      rw [Option.toList_some]
      by_cases hc : e = .committed
      · subst hc
        refine ⟨es ++ [.committed], [], (List.append_nil _).symm, List.not_mem_nil,
          .inr ⟨es, rfl⟩, ?_, ?_⟩
        · intro p
          rw [contentOf_append]
          exact (h.inv hd).committed ha he p
        · rw [contentOf_append]
          rfl
      · obtain ⟨es₁, es₂, hes, hnot, hlast, hbusy, hdur⟩ := ih
        refine ⟨es₁, es₂ ++ [e], by rw [hes, List.append_assoc], ?_, hlast, hbusy, ?_⟩
        · rw [List.mem_append, not_or, List.mem_singleton]
          exact ⟨hnot, fun heq => hc heq.symm⟩
        · rw [contentOf_append, ← hdur]
          exact Content.durable_step hc

/-- Whenever the machine stops, recovery restores every block of the file system to what the
operations saw at one moment: the last write of a header, or the beginning if there was none, when
no operation was in progress. -/
theorem recovery_restores_boundary (hd : readHead (d start) = some [])
    (h : History start d es s) :
    ∃ es₁ es₂ d', es = es₁ ++ es₂ ∧ Event.committed ∉ es₂ ∧
      (es₁ = [] ∨ ∃ es₀, es₁ = es₀ ++ [.committed]) ∧ (∀ p, (contentOf d es₁).busy p = false) ∧
      recoverFromLog start s.disk = some d' ∧
      ∀ b, Home start b → d' b = (contentOf d es₁).current b := by
  obtain ⟨es₁, es₂, hes, hnot, hlast, hbusy, hdur⟩ := h.boundary hd
  obtain ⟨blocks, hrec⟩ := (h.inv hd).recoverable
  obtain ⟨d', hd', hhome⟩ := hrec.recovers
  refine ⟨es₁, es₂, d', hes, hnot, hlast, hbusy, hd', fun b hb => ?_⟩
  rw [← hdur]
  exact hhome b hb

theorem eq_of_committed {es₁ es₂ : List Event} (h : es ++ [.committed] = es₁ ++ es₂)
    (hnot : Event.committed ∉ es₂) : es₁ = es ++ [.committed] := by
  rcases List.eq_nil_or_concat es₂ with rfl | ⟨init, e, rfl⟩
  · rw [h, List.append_nil]
  · rw [List.concat_eq_append, ← List.append_assoc] at h
    cases (List.append_inj' h rfl).2
    exact absurd (by simp) hnot

/-- A crash right after the header of the first operation was written. -/
theorem recovery_after_header :
    ∃ s d', History 2 emptyDisk [.began 0, .wrote 40 fun _ => 7, .ended 0, .committed] s ∧
      recoverFromLog 2 s.disk = some d' ∧ Home 2 40 ∧ d' 40 = fun _ => 7 := by
  obtain ⟨s, h⟩ := history_header
  obtain ⟨es₁, es₂, d', hes, hnot, -, -, hd', hhome⟩ :=
    recovery_restores_boundary readHead_emptyDisk h
  have hall : es₁ = [.began 0, .wrote 40 fun _ => 7, .ended 0] ++ [.committed] :=
    eq_of_committed hes hnot
  have h40 : Home 2 40 := by decide
  exact ⟨s, d', h, hd', h40, (hhome 40 h40).trans (by rw [hall]; rfl)⟩

/-! ## Starting again -/

/-- A step of the start of the system. -/
def Boots (start : Nat) (s s' : System) : Prop := act start s .boot = some (.ok s')

theorem boots_of_recover {b : Boot} (hb : s.boot = some b) (hs : recover start s b = some s') :
    Boots start s s' := by
  simp [Boots, act, hb, hs]

theorem History.boots (h : History start d es s) (hs : ReflTransGen (Boots start) s s') :
    History start d es s' := by
  induction hs with
  | refl => exact h
  | tail _ hlast ih => simpa [event] using ih.step hlast

/-- What is left of `recover_from_log` from entry `tail` on. -/
theorem History.installs (hd : readHead (d start) = some []) (blocks : List Nat) (tail : Nat)
    (h : History start d es s) (hb : s.boot = some (.install tail))
    (hblocks : s.log.blocks.drop tail = blocks) :
    ∃ s', ReflTransGen (Boots start) s s' ∧ s'.boot = none ∧
      s'.disk = update (installTrans start s.disk tail blocks) start
        (writeHead (installTrans start s.disk tail blocks start) []) := by
  have hclean := ((h.inv hd).starting _ hb).2.1
  induction blocks generalizing s tail with
  | nil =>
    have hend : s.log.blocks[tail]? = none :=
      List.getElem?_eq_none_iff.mpr (List.drop_eq_nil_iff.mp hblocks)
    have h₁ : Boots start s _ := boots_of_recover hb (by simp only [recover, hend]; rfl)
    refine ⟨_, .tail (.single h₁) (boots_of_recover rfl rfl), rfl, ?_⟩
    show update s.disk start (writeHead (s.bread start) []) = _
    rw [hclean]
    rfl
  | cons b blocks ih =>
    have hentry : s.log.blocks[tail]? = some b := by
      rw [← List.head?_drop, hblocks]
      rfl
    have h₁ : Boots start s _ := boots_of_recover hb (by simp only [recover, hentry]; rfl)
    have hnext := h.boots (.single h₁)
    obtain ⟨s', hrun, hup, hdisk⟩ := ih (tail + 1) hnext rfl
      (by rw [← List.tail_drop]; exact congrArg _ hblocks) ((hnext.inv hd).starting _ rfl).2.1
    refine ⟨s', .head h₁ hrun, hup, ?_⟩
    rwa [installTrans, ← hclean]

/-- Wherever the machine stops, be it in the middle of a recovery: starting it again comes to an
end, with the disk that `recover_from_log` computes from the one that was left, and the system then
reads in each block what the operations saw when the last header was written, or what was there in
the beginning, with no operation in progress. -/
theorem restart_comes_up (hd : readHead (d start) = some []) (h : History start d es s) :
    ∃ es₁ es₂ s', es = es₁ ++ es₂ ∧ Event.committed ∉ es₂ ∧
      (es₁ = [] ∨ ∃ es₀, es₁ = es₀ ++ [.committed]) ∧ (∀ p, (contentOf d es₁).busy p = false) ∧
      ReflTransGen (Boots start) (crash s) s' ∧ History start d (es ++ [.crashed]) s' ∧
      s'.boot = none ∧ recoverFromLog start s.disk = some s'.disk ∧
      ∀ b, Home start b → s'.bread b = (contentOf d es₁).current b := by
  have hcrash : History start d (es ++ [.crashed]) (crash s) := h.step (a := .crash) rfl
  obtain ⟨hstart, hclean, _⟩ := (hcrash.inv hd).starting .readHead rfl
  cases hstart with
  | @readHead blocks hrec =>
    have hread : readHead ((crash s).bread start) = some blocks := hrec.header
    have h₁ : Boots start (crash s) _ :=
      boots_of_recover rfl (by simp only [recover, hread, Option.map_some]; rfl)
    obtain ⟨s', hrest, hup, hdisk⟩ := (hcrash.boots (.single h₁)).installs hd blocks 0 rfl rfl
    have hrun : ReflTransGen (Boots start) (crash s) s' := .head h₁ hrest
    have h' := hcrash.boots hrun
    obtain ⟨es₁, es₂, hes, hnot, hlast, hbusy, hdur⟩ := h.boundary hd
    refine ⟨es₁, es₂, s', hes, hnot, hlast, hbusy, hrun, h', hup, ?_, fun b hb => ?_⟩
    · have hhead : readHead (s.disk start) = some blocks := hrec.header
      rw [recoverFromLog, hhead, hdisk]
      rfl
    · rw [← hdur, ((h'.inv hd).up hup).2 b hb, contentOf_append]
      rfl

/-- A crash while the header of the first operation is being installed. -/
theorem restart_after_header :
    ∃ s s' : System, History 2 emptyDisk [.began 0, .wrote 40 fun _ => 7, .ended 0, .committed] s ∧
      ReflTransGen (Boots 2) (crash s) s' ∧ s'.boot = none ∧
      recoverFromLog 2 s.disk = some s'.disk ∧ s'.bread 40 = fun _ => 7 := by
  obtain ⟨s, h⟩ := history_header
  obtain ⟨es₁, _, s', hes, hnot, -, -, hrun, -, hup, hdisk, hhome⟩ :=
    restart_comes_up readHead_emptyDisk h
  have hall : es₁ = [.began 0, .wrote 40 fun _ => 7, .ended 0] ++ [.committed] :=
    eq_of_committed hes hnot
  exact ⟨s, s', h, hrun, hup, hdisk, (hhome 40 (by decide)).trans (by rw [hall]; rfl)⟩

/-! ## Reads -/

/-- While the system is up, buffers show what was written last, whichever have left the cache; and
what was done by operations that have all ended is on the disk. -/
theorem reads_latest_and_rest_is_durable (hd : readHead (d start) = some [])
    (h : History start d es s) (hup : s.boot = none) (b : Nat) (hb : Home start b) :
    s.bread b = (contentOf d es).current b ∧
      ((∀ p, s.phase p = .outside) → s.disk b = (contentOf d es).current b) := by
  obtain ⟨hstate, hread⟩ := (h.inv hd).up hup
  refine ⟨hread b hb, fun hout => ?_⟩
  cases hstate with
  | idle _ _ _ hc hrest =>
    rw [hrest hout] at hc
    rw [← hread b hb]
    exact (hc.clean b List.not_mem_nil).symm
  | commit p pc halone _ _ =>
    have hp := halone.1.symm.trans (hout p)
    cases hp

/-- One operation, up to the end of `end_op`. -/
theorem first_operation_is_durable :
    ∃ s, History 2 emptyDisk [.began 0, .wrote 40 fun _ => 7, .ended 0, .committed] s ∧
      s.boot = none ∧ Home 2 40 ∧ (∀ p, s.phase p = .outside) ∧ s.disk 40 = fun _ => 7 := by
  have h₁ := history_booted.step (a := .beginOp 0) rfl
  have h₂ := h₁.step (a := .write 0 40 fun _ => 7) rfl
  have h₃ := h₂.step (a := .endOp 0) rfl
  have h₄ := h₃.step (a := .commit 0) rfl
  have h₅ := h₄.step (a := .commit 0) rfl
  have h₆ := h₅.step (a := .commit 0) rfl
  have h₇ := h₆.step (a := .commit 0) rfl
  have h₈ := h₇.step (a := .commit 0) rfl
  have h₉ := h₈.step (a := .commit 0) rfl
  have h₁₀ := h₉.step (a := .commit 0) rfl
  have hhome : Home 2 40 := by decide
  have hkept := reads_latest_and_rest_is_durable readHead_emptyDisk h₁₀ rfl 40 hhome
  exact ⟨_, h₁₀, rfl, hhome, by decide, hkept.2 (by decide)⟩

/-! ## Log space -/

/-- What the process may still log in its operation. -/
def Phase.credit : Phase → Nat
  | .inside own => 10 - own.length
  | _ => 0

@[simp] theorem Phase.credit_inside (own : List Nat) :
    (Phase.inside own).credit = 10 - own.length := rfl

@[simp] theorem Phase.credit_outside : Phase.outside.credit = 0 := rfl

/-- An operation that calls `log_write` has logged fewer than `MAXOPBLOCKS` different blocks.
`log_write` looks at the space before it looks whether the block is there already. -/
def Sparing (s : System) (a : Action) : Prop :=
  ∀ p b d own, a = .write p b d → s.phase p = .inside own → own.length < maxopblocks

/-- The states that runs of sparing operations come to. -/
inductive Spared (start : Nat) (d : Disk) : System → Prop
  | powerOn : Spared start d (powerOn d)
  | step {s s' : System} {a : Action} (h : Spared start d s) (hfew : Sparing s a)
      (ha : act start s a = some (.ok s')) : Spared start d s'

theorem Spared.history (h : Spared start d s) : ∃ es, History start d es s := by
  induction h with
  | powerOn => exact ⟨[], .powerOn⟩
  | step _ _ ha ih =>
    obtain ⟨es, hes⟩ := ih
    exact ⟨_, hes.step ha⟩

/-- What is logged and what may still be logged fits. -/
structure Reserved (s : System) : Prop where
  space : s.log.blocks.length + ∑ p, (s.phase p).credit ≤ 30
  own : ∀ p own, s.phase p = .inside own → own ⊆ s.log.blocks

theorem credit_enter (s : System) (p : Slot) (x : Phase) :
    ∑ q, ((s.enter p x).phase q).credit + (s.phase p).credit =
      ∑ q, (s.phase q).credit + x.credit :=
  StateWp.sum_update Finset.univ Phase.credit s.phase p x (Finset.mem_univ p)

theorem credit_le_insiders (s : System) : ∑ p, (s.phase p).credit ≤ 10 * (insiders s).card := by
  have hbound : ∀ p, (s.phase p).credit ≤ if (s.phase p).isInside = true then 10 else 0 := by
    intro p
    cases s.phase p with
    | inside own => exact Nat.sub_le 10 own.length
    | outside => exact Nat.zero_le _
    | committing pc => exact Nat.zero_le _
  calc ∑ p, (s.phase p).credit
      ≤ ∑ p, if (s.phase p).isInside = true then 10 else 0 := Finset.sum_le_sum fun p _ => hbound p
    _ = 10 * (insiders s).card := by
      rw [← Finset.sum_filter, Finset.sum_const, smul_eq_mul, Nat.mul_comm]
      rfl

theorem own_enter {own : List Nat} {x : Phase} (hq : (s.enter p x).phase q = .inside own) :
    (q = p ∧ x = .inside own) ∨ (q ≠ p ∧ s.phase q = .inside own) := by
  by_cases h : q = p
  · subst h
    exact .inl ⟨rfl, (update_self ..).symm.trans hq⟩
  · exact .inr ⟨h, (update_of_ne h ..).symm.trans hq⟩

theorem Reserved.beginOp (h : Reserved s) (hi : Inv start c s) (hp : s.phase p = .outside)
    (hs : beginOp s p = some s') : Reserved s' := by
  unfold KernelLog.beginOp at hs
  split at hs
  · cases hs
  · split at hs
    · cases hs
    · next hroom =>
      cases hs
      have hcredit := credit_enter s p (.inside [])
      have hinside := credit_le_insiders s
      have hcount := hi.count
      rw [hp] at hcredit
      simp only [Phase.credit_inside, Phase.credit_outside, List.length_nil] at hcredit
      rw [Log.full, decide_eq_true_eq] at hroom
      simp only [logblocks, maxopblocks] at hroom
      constructor
      · show s.log.blocks.length + ∑ q, ((s.enter p (.inside [])).phase q).credit ≤ 30
        omega
      · intro q own hq
        obtain ⟨_, hown⟩ | ⟨_, hq'⟩ := own_enter (s := s) hq
        · cases hown
          exact List.nil_subset _
        · exact h.own q own hq'

/-- A process logs a block: one that it has logged before is in the log already. -/
theorem Reserved.logWrite (h : Reserved s) {own : List Nat} {b : Nat} {blk : Block}
    (hp : s.phase p = .inside own) (hn : own.length < maxopblocks)
    (hs : logWrite s p own b blk = .ok s') : Reserved s' := by
  have hspace := h.space
  have hcredit := credit_enter s p (.inside (own.insert b))
  rw [hp] at hcredit
  simp only [Phase.credit_inside] at hcredit
  simp only [maxopblocks] at hn
  have hnew : b ∉ s.log.blocks → (own.insert b).length = own.length + 1 := fun hb =>
    List.length_insert_of_not_mem fun hmem => hb (h.own p own hp hmem)
  have hlen : own.length ≤ (own.insert b).length := by
    by_cases hmem : b ∈ own
    · rw [List.insert_of_mem hmem]
    · rw [List.length_insert_of_not_mem hmem]
      omega
  have hsub : ∀ blocks, s.log.blocks ⊆ blocks → b ∈ blocks → ∀ q own',
      (s.enter p (.inside (own.insert b))).phase q = .inside own' → own' ⊆ blocks := by
    intro blocks hblocks hb q own' hq
    obtain ⟨_, hown⟩ | ⟨_, hq'⟩ := own_enter hq
    · cases hown
      intro a ha
      rcases List.mem_insert_iff.mp ha with rfl | ha
      · exact hb
      · exact hblocks (h.own p own hp ha)
    · exact fun a ha => hblocks (h.own q own' hq' ha)
  unfold KernelLog.logWrite at hs
  split at hs
  · cases hs
  · split at hs
    · cases hs
    · split at hs
      · next hmem =>
        cases hs
        refine ⟨?_, hsub _ (List.Subset.refl _) hmem⟩
        show s.log.blocks.length + ∑ q, ((s.enter p (.inside (own.insert b))).phase q).credit ≤ 30
        omega
      · next hmem =>
        cases hs
        refine ⟨?_, hsub (s.log.blocks ++ [b]) (List.subset_append_left _ _)
          (List.mem_append_right _ List.mem_cons_self)⟩
        show (s.log.blocks ++ [b]).length +
          ∑ q, ((s.enter p (.inside (own.insert b))).phase q).credit ≤ 30
        have := hnew hmem
        rw [List.length_append, List.length_singleton]
        omega

/-- A process that stops logging gives back what it has not used. -/
theorem Reserved.leave (h : Reserved s) (p : Slot) {x : Phase} (hx : x.isInside = false)
    (hphase : s'.phase = (s.enter p x).phase)
    (hblocks : s'.log.blocks = s.log.blocks) : Reserved s' := by
  have hcredit := credit_enter s p x
  have hspace := h.space
  have hzero : x.credit = 0 := by
    cases x with
    | inside _ => cases hx
    | outside | committing _ => rfl
  refine ⟨?_, fun q own hq => ?_⟩
  · rw [hphase, hblocks]
    omega
  · rw [hphase] at hq
    rw [hblocks]
    obtain ⟨_, hown⟩ | ⟨_, hq'⟩ := own_enter hq
    · rw [hown] at hx
      cases hx
    · exact h.own q own hq'

theorem Reserved.endOp (h : Reserved s) (hs : endOp s p = .ok s') : Reserved s' := by
  simp only [KernelLog.endOp] at hs
  split at hs
  · cases hs
  · split at hs
    · cases hs
      exact h.leave p (x := .committing _) rfl rfl rfl
    · cases hs
      exact h.leave p (x := .outside) rfl rfl rfl

/-- Nobody is inside of an operation. -/
theorem Reserved.outside (hout : ∀ p, (s.phase p).isInside = false)
    (hl : s.log.blocks.length ≤ 30) : Reserved s := by
  have hcredit := credit_le_insiders s
  rw [insiders_empty hout, Finset.card_empty] at hcredit
  refine ⟨by omega, fun q own hq => ?_⟩
  have := hout q
  rw [hq] at this
  cases this

theorem Reserved.commit (h : Reserved s) (hi : Inv start c s) {pc : Commit}
    (hp : s.phase p = .committing pc) (hs : commit start s p pc = some s') : Reserved s' := by
  cases pc with
  | writeLog tail | install tail =>
    simp only [KernelLog.commit] at hs
    split at hs
    · cases hs
      exact h.leave p (x := .committing _) rfl rfl rfl
    · cases hs
      exact h.leave p (x := .committing _) rfl rfl rfl
  | writeHead =>
    cases hs
    exact h.leave p (x := .committing _) rfl rfl rfl
  | clear =>
    cases hs
    have hboot : s.boot = none := hi.not_booting (p := p) (by simp [hp])
    obtain ⟨halone, _, _⟩ := (hi.up hboot).1.committing hp
    refine .outside (fun q => ?_) (Nat.zero_le _)
    show (update s.phase p (.committing .done) q).isInside = false
    by_cases hq : q = p
    · rw [hq, update_self]
      rfl
    · rw [update_of_ne hq, halone.2 q hq]
      rfl
  | done =>
    cases hs
    exact h.leave p (x := .outside) rfl rfl rfl

theorem phase_recover {b : Boot} (hs : recover start s b = some s') : s'.phase = s.phase := by
  cases b with
  | readHead =>
    obtain ⟨blocks, _, hok⟩ := Option.map_eq_some_iff.mp hs
    cases hok
    rfl
  | install tail =>
    simp only [KernelLog.recover] at hs
    split at hs
    · cases hs
      rfl
    · cases hs
      rfl
  | clear =>
    cases hs
    rfl

theorem Reserved.step (h : Reserved s) (hi : Inv start c s) {a : Action} (hfew : Sparing s a)
    (ha : act start s a = some (.ok s')) : Reserved s' := by
  have hi' := hi.step ha
  cases acts_of_act ha with
  | beginOp _ hp hs hr =>
    cases hr
    exact h.beginOp hi hp hs
  | write hp _ hs => exact h.logWrite hp (hfew _ _ _ _ rfl hp) hs
  | endOp _ hs => exact h.endOp hs
  | commit hp hs hr =>
    cases hr
    exact h.commit hi hp hs
  | boot hb hs hr =>
    cases hr
    refine .outside (fun q => ?_) hi'.logged.length
    rw [phase_recover hs, (hi.starting _ hb).2.2.1 q]
    rfl
  | load _ hr | evict _ hr =>
    cases hr
    exact ⟨h.space, h.own⟩
  | crash hr =>
    cases hr
    exact .outside (fun _ => rfl) hi'.logged.length

theorem Spared.reserved (hd : readHead (d start) = some []) (h : Spared start d s) :
    Reserved s := by
  induction h with
  | powerOn => exact .outside (fun _ => rfl) (Nat.zero_le _)
  | step h hfew ha ih =>
    obtain ⟨es, hes⟩ := h.history
    exact ih.step (hes.inv hd) hfew ha

/-- Where the operations keep to what is reserved, no call on the log panics; and `begin_op` goes
through whenever no operation and no commit is in progress. -/
theorem sparing_runs_never_panic (hd : readHead (d start) = some []) (h : Spared start d s) :
    (∀ a e, Sparing s a → act start s a ≠ some (.error e)) ∧
      (s.boot = none → (∀ p, s.phase p = .outside) → ∀ p, (beginOp s p).isSome = true) := by
  obtain ⟨es, hes⟩ := h.history
  have hinv := hes.inv hd
  have hroom := (h.reserved hd).space
  constructor
  · intro a e hfew ha
    cases acts_of_act ha with
    | @write p _ _ own hp _ hs =>
      have hn := hfew _ _ _ _ rfl hp
      have hcredit : (s.phase p).credit ≤ ∑ q, (s.phase q).credit :=
        Finset.single_le_sum (fun q _ => Nat.zero_le (s.phase q).credit) (Finset.mem_univ p)
      have hinside : 0 < (insiders s).card :=
        Finset.card_pos.mpr ⟨p, mem_insiders.mpr (by rw [hp]; rfl)⟩
      have hcount := hinv.count
      rw [hp] at hcredit
      simp only [Phase.credit_inside] at hcredit
      simp only [maxopblocks] at hn
      rw [KernelLog.logWrite, if_neg (by simp only [logblocks]; omega), if_neg (by omega)] at hs
      split at hs
      · cases hs
      · cases hs
    | @endOp p _ hp hs =>
      have hboot : s.boot = none := hinv.not_booting (p := p) (by simp [hp])
      obtain ⟨_, hl, _, _⟩ := (hinv.up hboot).1.idle_of_inside hp
      simp only [KernelLog.endOp, hl, Bool.false_eq_true, if_false] at hs
      split at hs
      · cases hs
      · cases hs
    | beginOp _ _ _ hr | commit _ _ hr | boot _ _ hr | load _ hr | evict _ hr | crash hr =>
      cases hr
  · intro hboot hout p
    have hcount := hinv.count
    rw [insiders_empty fun q => by rw [hout q]; rfl, Finset.card_empty] at hcount
    cases (hinv.up hboot).1 with
    | idle _ hl _ _ hrest =>
      simp [KernelLog.beginOp, hl, Log.full, hrest hout, hcount, logblocks, maxopblocks]
    | commit q pc halone _ _ =>
      have hq := halone.1.symm.trans (hout q)
      cases hq

/-- The first operation may log a block, and another one may begin after it. -/
theorem first_operation_never_panics :
    ∃ s, Spared 2 emptyDisk s ∧ s.phase 0 = .inside [] ∧
      ∀ b d e, act 2 s (.write 0 b d) ≠ some (.error e) := by
  have hboot : ∀ (s : System), Sparing s .boot := fun s p b d own ha => by cases ha
  have h₁ := Spared.powerOn.step (hboot _) boot_emptyDisk
  have h₂ := h₁.step (hboot _) (a := .boot) rfl
  have h₃ := h₂.step (hboot _) (a := .boot) rfl
  have h₄ := h₃.step (fun p b d own ha => by cases ha) (a := .beginOp 0) rfl
  refine ⟨_, h₄, rfl, fun b d e => ?_⟩
  refine (sparing_runs_never_panic readHead_emptyDisk h₄).1 _ e fun p b' d' own ha hp => ?_
  cases ha
  cases hp
  decide

end KernelLog
