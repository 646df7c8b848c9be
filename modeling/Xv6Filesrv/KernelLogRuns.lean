import Xv6Filesrv.KernelLogInv

/-!
# Crashes

The moment whose contents are recovered is the last write of a non-empty header, at which no
operation was in progress, so what an operation did is there completely or not at all.
-/

namespace KernelLog

open KernelShm (Slot)
open KernelFreeze (Panic logblocks)
open Function (update update_apply update_eq_self update_of_ne update_self)

variable {start : Nat} {s s' : System} {p q : Slot} {d : Disk} {blocks : List Nat} {durable : Disk}
  {pc : Commit} {b : Nat} {own : List Nat} {c : Content}

/-! ## Operations -/

theorem mem_insiders : p ∈ insiders s ↔ (s.phase p).isInside = true := by
  rw [insiders, Finset.mem_filter]
  exact and_iff_right (Finset.mem_univ p)

theorem insiders_enter {x : Phase} (hx : x.isInside = true) :
    insiders (s.enter p x) = insert p (insiders s) := by
  ext q
  by_cases hq : q = p
  · subst hq
    simp [mem_insiders, System.enter, hx]
  · simp [mem_insiders, System.enter, hq]

theorem insiders_leave {x : Phase} (hx : x.isInside = false) :
    insiders (s.enter p x) = (insiders s).erase p := by
  ext q
  by_cases hq : q = p
  · subst hq
    simp [mem_insiders, System.enter, hx]
  · simp [mem_insiders, System.enter, hq]

theorem inside_not_rest (s : System) (p : Slot) (own : List Nat) :
    ¬ ∀ q, (s.enter p (.inside own)).phase q = .outside := by
  intro h
  have hp := h p
  simp [System.enter] at hp

/-- Nobody is in `commit` while a process is inside of an operation. -/
theorem Up.idle_of_inside (h : Up start c s) (hp : s.phase p = .inside own) :
    Idle s ∧ s.log.committing = false ∧ Recoverable start s.disk c.durable [] ∧
      Cached s s.log.blocks := by
  cases h with
  | idle hi hl hd hc _ => exact ⟨hi, hl, hd, hc⟩
  | commit q pc ha _ _ =>
    by_cases hq : p = q
    · rw [hq, ha.1] at hp
      cases hp
    · rw [ha.2 p hq] at hp
      cases hp

theorem Up.idle_of_free (h : Up start c s) (hl : s.log.committing = false) :
    Idle s ∧ Recoverable start s.disk c.durable [] ∧ Cached s s.log.blocks := by
  cases h with
  | idle hi hl hd hc _ => exact ⟨hi, hd, hc⟩
  | commit _ _ _ hl' _ => exact absurd (hl.symm.trans hl') Bool.false_ne_true

/-- The process in `commit` is where its phase says. -/
theorem Up.committing (h : Up start c s) (hp : s.phase p = .committing pc) :
    Alone s p pc ∧ s.log.committing = true ∧ Stage start c s pc := by
  cases h with
  | idle hi _ _ _ _ => exact absurd hp (hi p pc)
  | commit q pc' ha hl hs =>
    by_cases hq : p = q
    · subst hq
      obtain rfl : pc' = pc := by
        have hsame := ha.1.symm.trans hp
        cases hsame
        rfl
      exact ⟨ha, hl, hs⟩
    · rw [ha.2 p hq] at hp
      cases hp

theorem Idle.enter (h : Idle s) {x : Phase} (hx : ∀ pc, x ≠ .committing pc) :
    Idle (s.enter p x) := by
  intro q pc
  by_cases hq : q = p
  · subst hq
    simpa [System.enter] using hx pc
  · simpa [System.enter, hq] using h q pc

theorem busy_enter (h : ∀ q, c.busy q = (s.phase q).isInside) (x : Phase) (q : Slot) :
    update c.busy p x.isInside q = ((s.enter p x).phase q).isInside := by
  by_cases hq : q = p
  · subst hq
    simp [System.enter]
  · simp [System.enter, hq, h q]

/-- A process that stays inside or stays out leaves the operations in progress as they are. -/
theorem busy_stay (h : ∀ q, c.busy q = (s.phase q).isInside) {x : Phase}
    (hx : x.isInside = (s.phase p).isInside) (q : Slot) :
    c.busy q = ((s.enter p x).phase q).isInside := by
  rw [← busy_enter h x q, hx, ← h p, update_eq_self]

theorem Inv.not_booting (h : Inv start c s) (hp : s.phase p ≠ .outside) : s.boot = none := by
  cases hb : s.boot with
  | none => rfl
  | some b => exact absurd ((h.starting b hb).2.2.1 p) hp

theorem Inv.of_up (hboot : s.boot = none) (busy : ∀ p, c.busy p = (s.phase p).isInside)
    (count : s.log.outstanding = (insiders s).card) (logged : Logged start s.log.blocks)
    (up : Up start c s) (hread : ∀ b, Home start b → s.bread b = c.current b) : Inv start c s :=
  ⟨busy, count, logged, fun _ => ⟨up, hread⟩,
    fun x hx => absurd (hboot.symm.trans hx) (Option.some_ne_none x).symm⟩

theorem Inv.beginOp (h : Inv start c s) (hboot : s.boot = none) (hp : s.phase p = .outside)
    (hs : beginOp s p = some s') : Inv start (c.step (.began p)) s' := by
  unfold KernelLog.beginOp at hs
  split at hs
  · cases hs
  · next hl =>
    split at hs
    · cases hs
    · cases hs
      obtain ⟨hup, hread⟩ := h.up hboot
      have hfree : s.log.committing = false := by simpa using hl
      obtain ⟨hidle, hd, hc⟩ := hup.idle_of_free hfree
      have hnew : p ∉ insiders s := by
        rw [mem_insiders, hp]
        exact Bool.false_ne_true
      refine .of_up hboot (busy_enter h.busy (.inside [])) ?_ h.logged ?_ hread
      · rw [insiders_enter rfl]
        show s.log.outstanding + 1 = ((insert p (insiders s)).card : Int)
        rw [Finset.card_insert_of_notMem hnew, h.count]
        rfl
      · exact .idle (hidle.enter (s := s.setLog _) (by simp)) hfree hd ⟨hc.clean, hc.pinned⟩
          fun hout => absurd hout (inside_not_rest _ p [])

/-- One more block is logged. -/
theorem Logged.append (h : Logged start blocks) (hb : Home start b) (hnew : b ∉ blocks)
    (hroom : blocks.length < 30) : Logged start (blocks ++ [b]) := by
  refine ⟨h.nodup.append (List.nodup_singleton b) ?_, fun a ha => ?_, ?_⟩
  · simpa using hnew
  · rcases List.mem_append.mp ha with ha | ha
    · exact h.home a ha
    · rw [List.mem_singleton.mp ha]
      exact hb
  · rw [List.length_append, List.length_singleton]
    omega

theorem Inv.logWrite (h : Inv start c s) {d : Block} (hp : s.phase p = .inside own)
    (hb : Home start b) (hs : logWrite s p own b d = .ok s') :
    Inv start (c.step (.wrote b d)) s' := by
  have hboot : s.boot = none := h.not_booting (p := p) (by simp [hp])
  obtain ⟨hup, hread⟩ := h.up hboot
  obtain ⟨hidle, hl, hd, hc⟩ := hup.idle_of_inside hp
  have hin : (s.phase p).isInside = true := by rw [hp]; rfl
  have hsees : ∀ a, Home start a → (s.setBuf b d).bread a = update c.current b d a := by
    intro a ha
    rw [bread_setBuf, update_apply]
    split
    · rfl
    · exact hread a ha
  have hbusy := busy_stay (p := p) h.busy (x := .inside (own.insert b)) hin.symm
  have hcount : s.log.outstanding = (insiders (s.enter p (.inside (own.insert b)))).card := by
    rw [insiders_enter rfl, Finset.insert_eq_of_mem (mem_insiders.mpr hin)]
    exact h.count
  unfold KernelLog.logWrite at hs
  split at hs
  · cases hs
  · next hroom =>
    split at hs
    · cases hs
    · split at hs
      · next hmem =>
        cases hs
        refine .of_up hboot hbusy hcount h.logged (.idle (hidle.enter (s := s.setBuf b d) (by simp))
          hl hd ⟨fun a ha => ?_, hc.pinned⟩ fun hout => absurd hout (inside_not_rest _ p _)) hsees
        have hab : a ≠ b := by
          rintro rfl
          exact ha hmem
        exact (bread_setBuf s b a d).trans ((if_neg hab).trans (hc.clean a ha))
      · next hnew =>
        cases hs
        have hlogged : Logged start (s.log.blocks ++ [b]) := by
          simp only [logblocks] at hroom
          exact h.logged.append hb hnew (by omega)
        refine .of_up hboot hbusy hcount hlogged
          (.idle (hidle.enter (s := (s.setBuf b d).bpin b |>.setLog _) (by simp)) hl hd
            ⟨fun a ha => ?_, fun a ha => ?_⟩ fun hout => absurd hout (inside_not_rest _ p _)) hsees
        · rw [System.enter, System.setLog, List.mem_append, not_or, List.mem_singleton] at ha
          exact (bread_setBuf s b a d).trans ((if_neg ha.2).trans (hc.clean a ha.1))
        · show 0 < update s.pins b (s.pins b + 1) a
          rw [update_apply]
          split
          · exact Nat.succ_pos _
          · next hab =>
            rcases List.mem_append.mp ha with ha | ha
            · exact hc.pinned a ha
            · exact absurd (List.mem_singleton.mp ha) hab

theorem Inv.endOp (h : Inv start c s) (hp : s.phase p = .inside own) (hs : endOp s p = .ok s') :
    Inv start (c.step (.ended p)) s' := by
  have hboot : s.boot = none := h.not_booting (p := p) (by simp [hp])
  obtain ⟨hup, hread⟩ := h.up hboot
  obtain ⟨hidle, hl, hd, hc⟩ := hup.idle_of_inside hp
  have hinside : p ∈ insiders s := by
    rw [mem_insiders, hp]
    rfl
  have hpos : 0 < (insiders s).card := Finset.card_pos.mpr ⟨p, hinside⟩
  have hcount : s.log.outstanding - 1 = (((insiders s).erase p).card : Int) := by
    rw [Finset.card_erase_of_mem hinside, h.count]
    omega
  simp only [KernelLog.endOp] at hs
  split at hs
  · cases hs
  · split at hs
    · next hzero =>
      cases hs
      have hlast : ((insiders s).erase p).card = 0 := by
        have : s.log.outstanding - 1 = 0 := hzero
        omega
      have halone : ∀ q, q ≠ p → s.phase q = .outside := by
        intro q hq
        have hout : q ∉ insiders s := fun hmem =>
          Finset.card_ne_zero_of_mem (Finset.mem_erase.mpr ⟨hq, hmem⟩) hlast
        rw [mem_insiders] at hout
        cases hphase : s.phase q with
        | outside => rfl
        | inside own => exact absurd (by rw [hphase]; rfl) hout
        | committing pc => exact absurd hphase (hidle q pc)
      refine .of_up hboot (busy_enter h.busy (.committing _)) ?_ h.logged ?_ hread
      · rw [insiders_leave rfl]
        exact hcount
      · refine .commit p _ ⟨update_self .., fun q hq => ?_⟩ rfl ?_
        · exact (update_of_ne hq ..).trans (halone q hq)
        · split
          · next hnil =>
            have hnil' : s.log.blocks = [] := hnil
            exact .done hd (hnil' ▸ ⟨hc.clean, hc.pinned⟩) hnil
          · exact .writeLog hd ⟨hc.clean, hc.pinned⟩ fun i b hi => absurd hi (Nat.not_lt_zero i)
    · next hmore =>
      cases hs
      refine .of_up hboot (busy_enter h.busy .outside) ?_ h.logged ?_ hread
      · rw [insiders_leave rfl]
        exact hcount
      · refine .idle (hidle.enter (s := s.setLog _) (by simp)) hl hd ⟨hc.clean, hc.pinned⟩
          fun hout => ?_
        -- another process is inside of an operation
        have hne : ((insiders s).erase p).card ≠ 0 := by
          have : s.log.outstanding - 1 ≠ 0 := hmore
          omega
        obtain ⟨q, hq⟩ := Finset.card_pos.mp (Nat.pos_of_ne_zero hne)
        rw [Finset.mem_erase, mem_insiders] at hq
        have hqout : s.phase q = .outside := (update_of_ne hq.1 ..).symm.trans (hout q)
        rw [hqout] at hq
        exact absurd hq.2 Bool.false_ne_true

/-! ## `commit` -/

theorem Alone.enter {pc pc' : Commit} (h : Alone s p pc) :
    Alone (s.enter p (.committing pc')) p pc' :=
  ⟨update_self .., fun q hq => (update_of_ne hq ..).trans (h.2 q hq)⟩

theorem Inv.entered (h : Inv start c s) (ha : Alone s p pc) {x : Phase} (hx : x.isInside = false) :
    (∀ q, c.busy q = ((s.enter p x).phase q).isInside) ∧
      s.log.outstanding = (insiders (s.enter p x)).card := by
  have hout : (s.phase p).isInside = false := by rw [ha.1]; rfl
  refine ⟨busy_stay h.busy (hx.trans hout.symm), ?_⟩
  rw [insiders_leave hx, Finset.erase_eq_of_notMem]
  · exact h.count
  · rw [mem_insiders, hout]
    exact Bool.false_ne_true

/-- What a step of `commit` leaves alone. -/
structure Steady (s s' : System) : Prop where
  phase : s'.phase = s.phase
  boot : s'.boot = s.boot
  outstanding : s'.log.outstanding = s.log.outstanding
  committing : s'.log.committing = s.log.committing

/-- The process in `commit` comes to its next stage. -/
theorem Inv.advance (h : Inv start c s) {pc pc' : Commit} (ha : Alone s p pc)
    (hl : s.log.committing = true) (hboot : s.boot = none) {c' : Content}
    (hbusy : c'.busy = c.busy) (hsteady : Steady s s') (hlogged : Logged start s'.log.blocks)
    (hstage : Stage start c' (s'.enter p (.committing pc')) pc')
    (hread : ∀ b, Home start b → s'.bread b = c'.current b) :
    Inv start c' (s'.enter p (.committing pc')) := by
  obtain ⟨hbusy', hcount⟩ := h.entered ha (x := .committing pc') rfl
  have hphase : (s'.enter p (.committing pc')).phase = (s.enter p (.committing pc')).phase := by
    rw [System.enter, System.enter, hsteady.phase]
  refine .of_up (hsteady.boot.trans hboot) ?_ ?_ hlogged
    (.commit p _ ?_ (hsteady.committing.trans hl) hstage) hread
  · rwa [hbusy, hphase]
  · rw [insiders, hphase]
    exact hsteady.outstanding.trans hcount
  · rw [Alone, hphase]
    exact ha.enter

theorem not_home_slot {i : Nat} (hi : i < 30) : ¬ Home start (start + i + 1) := by
  intro h
  have := h.1
  omega

section Commit

variable (h : Inv start c s)
include h

/-- A copy of a block goes to the log. -/
theorem Inv.writeLog {tail b : Nat} (ha : Alone s p (.writeLog tail)) (hl : s.log.committing = true)
    (hs : Stage start c s (.writeLog tail)) (hboot : s.boot = none)
    (hb : s.log.blocks[tail]? = some b) :
    Inv start c ((s.bwrite (start + tail + 1) (s.bread b)).enter p
      (.committing (.writeLog (tail + 1)))) := by
  cases hs with
  | writeLog hd hc hcopied =>
    obtain ⟨hne, htail, hmem⟩ := h.logged.place hb
    have hsees : ∀ a, Home start a →
        (s.bwrite (start + tail + 1) (s.bread b)).bread a = s.bread a := by
      intro a ha
      apply bread_bwrite_of_ne
      rintro rfl
      exact not_home_slot htail ha
    have hc' := hc.bwrite (start + tail + 1) (s.bread b)
    refine h.advance ha hl hboot rfl ⟨rfl, rfl, rfl, rfl⟩ h.logged
      (.writeLog (hd.write_slot _ htail) ⟨hc'.clean, hc'.pinned⟩ fun i b' hi hb' => ?_)
      fun a hhome => (hsees a hhome).trans ((h.up hboot).2 a hhome)
    show update s.disk (start + tail + 1) _ (start + i + 1) = (s.bwrite _ _).bread b'
    rw [hsees b' (h.logged.home b' (List.mem_of_getElem? hb')), update_apply]
    by_cases hit : i = tail
    · subst hit
      rw [if_pos rfl, Option.some.inj (hb.symm.trans hb')]
    · rw [if_neg (by omega)]
      exact hcopied i b' (by omega) hb'

/-- The header is written: what was done since the last time is durable now. -/
theorem Inv.writeHead (ha : Alone s p .writeHead) (hl : s.log.committing = true)
    (hs : Stage start c s .writeHead) (hboot : s.boot = none) :
    Inv start (c.step .committed)
      ((s.bwrite start (KernelLog.writeHead (s.bread start) s.log.blocks)).enter p
        (.committing (.install 0))) := by
  have hread := (h.up hboot).2
  cases hs with
  | writeHead hd hc hcopied =>
    have hc' := hc.bwrite start (KernelLog.writeHead (s.bread start) s.log.blocks)
    refine h.advance ha hl hboot rfl ⟨rfl, rfl, rfl, rfl⟩ h.logged
      (.install ⟨?_, h.logged, fun i b hb => ?_, fun b hhome hnot => ?_⟩ ⟨hc'.clean, hc'.pinned⟩
        fun _ _ => rfl)
      fun a hhome => (bread_bwrite_of_ne s _ (home_ne_start hhome)).trans (hread a hhome)
    · refine (congrArg KernelLog.readHead (update_self ..)).trans ?_
      exact readHead_writeHead _ h.logged.entries
    · refine (update_of_ne (by omega) ..).trans ((hcopied i b hb).trans ?_)
      exact hread b (h.logged.home b (List.mem_of_getElem? hb))
    · refine (update_of_ne (home_ne_start hhome) ..).trans ?_
      exact (hc.clean b hnot).symm.trans (hread b hhome)

/-- A block is installed. -/
theorem Inv.install {tail b : Nat} (ha : Alone s p (.install tail)) (hl : s.log.committing = true)
    (hs : Stage start c s (.install tail)) (hboot : s.boot = none)
    (hb : s.log.blocks[tail]? = some b) :
    Inv start c (((s.bwrite b (s.bread (start + tail + 1))).bunpin b).enter p
      (.committing (.install (tail + 1)))) := by
  have hread := (h.up hboot).2
  cases hs with
  | install hd hc hsame =>
    obtain ⟨hne, htail, hmem⟩ := h.logged.place hb
    have hhome := h.logged.home b hmem
    -- the copy in the log is what the buffer holds
    have hcopy : s.bread (start + tail + 1) = s.bread b := by
      rw [hc.clean _ fun ha => not_home_slot htail (h.logged.home _ (List.mem_of_mem_drop ha)),
        hd.copies tail b hb, hsame b hhome, hread b hhome]
    have hsees : ∀ a, (s.bwrite b (s.bread (start + tail + 1))).bread a = s.bread a := by
      intro a
      rw [bread_bwrite, hcopy]
      split
      · next hab => rw [hab]
      · rfl
    have hdrop : s.log.blocks.drop tail = b :: s.log.blocks.drop (tail + 1) := by
      rw [List.drop_eq_getElem?_toList_append, hb]
      rfl
    have hnew : b ∉ s.log.blocks.drop (tail + 1) := by
      have hnodup := h.logged.nodup.sublist (List.drop_sublist tail _)
      rw [hdrop] at hnodup
      exact (List.nodup_cons.mp hnodup).1
    rw [hdrop] at hc
    refine h.advance ha hl hboot rfl ⟨rfl, rfl, rfl, rfl⟩ h.logged
      (.install (hd.write_home _ hmem) ⟨fun a hclean => ?_, fun a hdirty => ?_⟩ hsame)
      fun a hhome' => (hsees a).trans (hread a hhome')
    · refine bwrite_clean fun hab => hc.clean a fun hin => ?_
      rcases List.mem_cons.mp hin with hin | hin
      · exact hab hin
      · exact hclean hin
    · have hab : a ≠ b := by
        rintro rfl
        exact hnew hdirty
      show 0 < update s.pins b (s.pins b - 1) a
      rw [update_of_ne hab]
      exact hc.pinned a (List.mem_cons_of_mem b hdirty)

/-- The header is erased. -/
theorem Inv.clear (ha : Alone s p .clear) (hl : s.log.committing = true)
    (hs : Stage start c s .clear) (hboot : s.boot = none) :
    Inv start c (((s.setLog { s.log with blocks := [] }).bwrite start
      (KernelLog.writeHead (s.bread start) [])).enter p (.committing .done)) := by
  have hread := (h.up hboot).2
  cases hs with
  | clear hd hc hsame =>
    have hplace : ∀ a, Home start a → s.disk a = c.durable a := by
      intro a hhome
      rw [hsame a hhome, ← hread a hhome]
      exact (hc.clean a List.not_mem_nil).symm
    refine h.advance ha hl hboot rfl ⟨rfl, rfl, rfl, rfl⟩ .nil
      (.done (.erase _ hplace) ⟨fun a hclean => bwrite_clean fun _ => hc.clean a hclean,
        hc.pinned⟩ rfl)
      fun a hhome => (bread_bwrite_of_ne _ _ (home_ne_start hhome)).trans (hread a hhome)

/-- The next part of `commit` begins. -/
theorem Inv.turn {pc pc' : Commit} (ha : Alone s p pc) (hl : s.log.committing = true)
    (hs : Stage start c s pc') (hboot : s.boot = none) :
    Inv start c (s.enter p (.committing pc')) := by
  refine h.advance ha hl hboot rfl ⟨rfl, rfl, rfl, rfl⟩ h.logged ?_ (h.up hboot).2
  cases hs with
  | writeLog hd hc hcopied => exact .writeLog hd ⟨hc.clean, hc.pinned⟩ hcopied
  | writeHead hd hc hcopied => exact .writeHead hd ⟨hc.clean, hc.pinned⟩ hcopied
  | install hd hc hsame => exact .install hd ⟨hc.clean, hc.pinned⟩ hsame
  | clear hd hc hsame => exact .clear hd ⟨hc.clean, hc.pinned⟩ hsame
  | done hd hc hb => exact .done hd ⟨hc.clean, hc.pinned⟩ hb

theorem Inv.finish (ha : Alone s p .done) (hs : Stage start c s .done) (hboot : s.boot = none) :
    Inv start c ((s.setLog { s.log with committing := false }).enter p .outside) := by
  obtain ⟨hbusy, hcount⟩ := h.entered ha (x := .outside) rfl
  cases hs with
  | done hd hc hb =>
    refine .of_up hboot hbusy hcount h.logged
      (.idle (fun q pc => ?_) rfl hd ?_ fun _ => hb) (h.up hboot).2
    · by_cases hq : q = p
      · subst hq
        simp [System.enter]
      · simp [System.enter, System.setLog, hq, ha.2 q hq]
    · show Cached _ s.log.blocks
      rw [hb]
      exact ⟨hc.clean, hc.pinned⟩

/-- The contents after a step of `commit`. -/
theorem Inv.commit (hp : s.phase p = .committing pc) (hs : commit start s p pc = some s') :
    Inv start (if pc = .writeHead then c.step .committed else c) s' := by
  have hboot : s.boot = none := h.not_booting (p := p) (by simp [hp])
  obtain ⟨ha, hl, hstage⟩ := (h.up hboot).1.committing hp
  cases pc with
  | writeLog tail =>
    rw [if_neg (by simp)]
    simp only [KernelLog.commit] at hs
    split at hs
    · next b hb =>
      cases hs
      exact h.writeLog ha hl hstage hboot hb
    · next hend =>
      cases hs
      refine h.turn ha hl ?_ hboot
      cases hstage with
      | writeLog hd hc hcopied =>
        refine .writeHead hd hc fun i b hb => hcopied i b ?_ hb
        have hlt := (List.getElem?_eq_some_iff.mp hb).1
        have hle := List.getElem?_eq_none_iff.mp hend
        omega
  | writeHead =>
    rw [if_pos rfl]
    cases hs
    exact h.writeHead ha hl hstage hboot
  | install tail =>
    rw [if_neg (by simp)]
    simp only [KernelLog.commit] at hs
    split at hs
    · next b hb =>
      cases hs
      exact h.install ha hl hstage hboot hb
    · next hend =>
      cases hs
      refine h.turn ha hl ?_ hboot
      cases hstage with
      | install hd hc hsame =>
        rw [List.drop_of_length_le (List.getElem?_eq_none_iff.mp hend)] at hc
        exact .clear hd hc hsame
  | clear =>
    rw [if_neg (by simp)]
    cases hs
    exact h.clear ha hl hstage hboot
  | done =>
    rw [if_neg (by simp)]
    cases hs
    exact h.finish ha hstage hboot

end Commit

/-! ## Starting -/

/-- The system goes on starting. -/
theorem Inv.of_starting {b : Boot} (hboot : s.boot = some b)
    (busy : ∀ p, c.busy p = (s.phase p).isInside) (count : s.log.outstanding = (insiders s).card)
    (logged : Logged start s.log.blocks) (hs : Starting start c s b)
    (hclean : ∀ a, s.bread a = s.disk a) (hrest : (∀ p, s.phase p = .outside) ∧
      s.log.committing = false ∧ ∀ b, c.current b = c.durable b) : Inv start c s := by
  refine ⟨busy, count, logged,
    fun hnone => absurd (hnone.symm.trans hboot) (Option.some_ne_none b).symm, fun x hx => ?_⟩
  obtain rfl : b = x := Option.some.inj (hboot.symm.trans hx)
  exact ⟨hs, hclean, hrest⟩

theorem insiders_empty (h : ∀ p, (s.phase p).isInside = false) : insiders s = ∅ := by
  ext q
  simp [mem_insiders, h q]

theorem insiders_crash (s : System) : insiders (crash s) = ∅ := insiders_empty fun _ => rfl

/-- The disk after a crash is taken as it is. -/
theorem Inv.crash (h : Inv start c s) : Inv start (c.step .crashed) (crash s) := by
  obtain ⟨blocks, hd⟩ := h.recoverable
  exact .of_starting rfl (fun _ => rfl) (by rw [insiders_crash]; rfl) .nil (.readHead hd)
    (fun _ => rfl) ⟨fun _ => rfl, rfl, fun _ => rfl⟩

theorem Inv.recover (h : Inv start c s) {b : Boot} (hb : s.boot = some b)
    (hs : recover start s b = some s') : Inv start c s' := by
  obtain ⟨hstart, hclean, hout, hl, hsame⟩ := h.starting b hb
  cases hstart with
  | @readHead blocks hd =>
    simp only [KernelLog.recover, hclean start, hd.header, Option.map_some] at hs
    cases hs
    exact .of_starting rfl h.busy h.count hd.logged
      (.install hd fun i b hi => absurd hi (Nat.not_lt_zero i)) hclean ⟨hout, hl, hsame⟩
  | @install tail hd hin =>
    simp only [KernelLog.recover] at hs
    split at hs
    · next b hb' =>
      cases hs
      have hmem := List.mem_of_getElem? hb'
      refine .of_starting rfl h.busy h.count h.logged
        (.install (hd.write_home _ hmem) fun i b' hi hb'' => ?_)
        (fun a => bwrite_clean fun _ => hclean a) ⟨hout, hl, hsame⟩
      show update s.disk b _ b' = _
      rw [update_apply]
      split
      · next hbb => rw [hclean, hd.copies tail b hb', hbb]
      · next hbb =>
        refine hin i b' ?_ hb''
        have hne' : i ≠ tail := by
          rintro rfl
          exact hbb (Option.some.inj (hb''.symm.trans hb'))
        omega
    · next hend =>
      cases hs
      refine .of_starting rfl h.busy h.count h.logged (.clear hd fun b hmem => ?_) hclean
        ⟨hout, hl, hsame⟩
      obtain ⟨i, hi⟩ := List.mem_iff_getElem?.mp hmem
      refine hin i b ?_ hi
      have hlt : i < s.log.blocks.length := (List.getElem?_eq_some_iff.mp hi).1
      have hle := List.getElem?_eq_none_iff.mp hend
      omega
  | clear hd hin =>
    cases hs
    have hplace : ∀ a, Home start a → s.disk a = c.durable a := by
      intro a hhome
      by_cases hmem : a ∈ s.log.blocks
      · exact hin a hmem
      · exact hd.others a hhome hmem
    refine .of_up rfl h.busy h.count .nil (.idle (fun q pc => ?_) hl (.erase _ hplace)
      ⟨fun a _ => bwrite_clean fun _ => hclean a, fun a hdirty => absurd hdirty List.not_mem_nil⟩
      fun _ => rfl) fun a hhome => ?_
    · show s.phase q ≠ _
      simp [hout q]
    · refine (bread_bwrite_of_ne _ _ (home_ne_start hhome)).trans ?_
      exact (hclean a).trans ((hplace a hhome).trans (hsame a).symm)

/-! ## Runs -/

/-- The contents after an action. -/
def Content.after (c : Content) (e : Option Event) : Content := e.toList.foldl Content.step c

/-- What an action that is taken has found. -/
inductive Acts (start : Nat) (s : System) (r : Except Panic System) : Action → Prop
  | beginOp {p : Slot} {s' : System} (hboot : s.boot = none) (hp : s.phase p = .outside)
      (hs : beginOp s p = some s') (hr : r = .ok s') : Acts start s r (.beginOp p)
  | write {p : Slot} {b : Nat} {d : Block} {own : List Nat} (hp : s.phase p = .inside own)
      (hb : Home start b) (hr : logWrite s p own b d = r) : Acts start s r (.write p b d)
  | endOp {p : Slot} {own : List Nat} (hp : s.phase p = .inside own) (hr : endOp s p = r) :
      Acts start s r (.endOp p)
  | commit {p : Slot} {pc : Commit} {s' : System} (hp : s.phase p = .committing pc)
      (hs : commit start s p pc = some s') (hr : r = .ok s') : Acts start s r (.commit p)
  | boot {b : Boot} {s' : System} (hb : s.boot = some b) (hs : recover start s b = some s')
      (hr : r = .ok s') : Acts start s r .boot
  | load (b : Nat) (hr : r = .ok (s.setBuf b (s.bread b))) : Acts start s r (.load b)
  | evict {b : Nat} (hb : s.pins b = 0)
      (hr : r = .ok { s with cache := update s.cache b none }) : Acts start s r (.evict b)
  | crash (hr : r = .ok (crash s)) : Acts start s r .crash

theorem acts_of_act {r : Except Panic System} {a : Action} (ha : act start s a = some r) :
    Acts start s r a := by
  cases a with
  | beginOp p =>
    obtain ⟨⟨hboot, hp⟩, hs⟩ := Option.ite_none_right_eq_some.mp ha
    obtain ⟨s', hs', rfl⟩ := Option.map_eq_some_iff.mp hs
    exact .beginOp hboot hp hs' rfl
  | write p b d =>
    simp only [act] at ha
    split at ha
    · next own hp =>
      obtain ⟨hb, hs⟩ := Option.ite_none_right_eq_some.mp ha
      exact .write hp hb (Option.some.inj hs)
    · cases ha
  | endOp p =>
    simp only [act] at ha
    split at ha
    · next own hp => exact .endOp hp (Option.some.inj ha)
    · cases ha
  | commit p =>
    simp only [act] at ha
    split at ha
    · next pc hp =>
      obtain ⟨s', hs, rfl⟩ := Option.map_eq_some_iff.mp ha
      exact .commit hp hs rfl
    · cases ha
  | boot =>
    obtain ⟨b, hb, hs⟩ := Option.bind_eq_some_iff.mp ha
    obtain ⟨s', hs', rfl⟩ := Option.map_eq_some_iff.mp hs
    exact .boot hb hs' rfl
  | load b => exact .load b (Option.some.inj ha).symm
  | evict b =>
    obtain ⟨hb, hs⟩ := Option.ite_none_right_eq_some.mp ha
    exact .evict hb (Option.some.inj hs).symm
  | crash => exact .crash (Option.some.inj ha).symm

theorem Inv.step (h : Inv start c s) {a : Action} (ha : act start s a = some (.ok s')) :
    Inv start (c.after (event s a)) s' := by
  cases acts_of_act ha with
  | beginOp hboot hp hs hr =>
    cases hr
    exact h.beginOp hboot hp hs
  | write hp hb hs => exact h.logWrite hp hb hs
  | endOp hp hs => exact h.endOp hp hs
  | commit hp hs hr =>
    cases hr
    have hnext := h.commit hp hs
    simp only [event, hp, Phase.committing.injEq]
    split
    · next hpc => rwa [if_pos hpc] at hnext
    · next hpc => rwa [if_neg hpc] at hnext
  | boot hb hs hr =>
    cases hr
    exact h.recover hb hs
  | load b hr =>
    cases hr
    exact h.load b
  | evict hb hr =>
    cases hr
    exact h.evict hb
  | crash hr =>
    cases hr
    exact h.crash

theorem contentOf_append (d : Disk) (es es' : List Event) :
    contentOf d (es ++ es') = es'.foldl Content.step (contentOf d es) := by
  rw [contentOf, contentOf, List.foldl_append]

theorem inv_powerOn (hd : readHead (d start) = some []) :
    Inv start ⟨d, d, fun _ => false⟩ (powerOn d) :=
  .of_starting rfl (fun _ => rfl) (by rw [powerOn, insiders_crash]; rfl) .nil
    (.readHead (.erased hd fun _ _ => rfl)) (fun _ => rfl) ⟨fun _ => rfl, rfl, fun _ => rfl⟩

theorem History.inv {es : List Event} (hd : readHead (d start) = some [])
    (h : History start d es s) : Inv start (contentOf d es) s := by
  induction h with
  | powerOn => exact inv_powerOn hd
  | step _ ha ih =>
    rw [contentOf_append]
    exact ih.step ha

end KernelLog
