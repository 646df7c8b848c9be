import Xv6Filesrv.KernelForkn

/-!
# The loop of `kforkn`

What holds of the children, of the slot that `kfork` is at and of the caller, at every moment of a
call of `forkn`.
-/

namespace KernelForkn

open KernelMemInv KernelShm KernelProc KernelSteps
open KernelTable KernelSlots KernelBoot KernelPids
open KernelTree KernelLookups

variable {ram : Ram} {s s₀ t u : Kernel} {p c np : Slot} {a : Action} {n pid : Int} {k : Create}
  {i : Nat} {kids : List Slot} {l : List (Option Slot)}

/-- The child that `kfork` is making, its pid and what it is made for. -/
def making : Pc → Option (Slot × Int × Create)
  | .acquire (.link np pid k) | .crit (.link np pid k) | .publish np pid k => some (np, pid, k)
  | _ => none

/-- The children made so far. -/
structure Made (s : Kernel) (p : Slot) (t : Kernel) (kids : List Slot) : Prop where
  nodup : kids.Nodup
  kid : ∀ c ∈ kids, Kid s p t c

/-- Where `p` is in the call of `forkn` that it began in `s`, and what has come of it: the loop
looks for a slot, makes a child, has made one, could not make one, or has returned. -/
inductive Inside (s : Kernel) (p : Slot) (n : Int) (t : Kernel) (l : List (Option Slot)) : Prop
  | looking {kids : List Slot} {i : Nat} (hm : Made s p t kids) (hk : Known s p t kids)
      (hpc : (t.proc p).pc = .alloc (.forkn n kids.length kids.length) i)
      (hn : (kids.length : Int) < n) (hl : l = kids.map some)
  | linking {kids : List Slot} {np : Slot} {pid : Int} (hm : Made s p t kids)
      (hk : Known s p t (kids ++ [np]))
      (hpc : making (t.proc p).pc = some (np, pid, .forkn n kids.length kids.length))
      (hn : (kids.length : Int) < n) (hl : l = kids.map some) (hnp : np ∉ kids)
      (hpid : (t.proc np).pid = pid) (hb : Begun s t np)
  | made {kids : List Slot} {i rc : Int} (hm : Made s p t kids) (hk : Known s p t kids)
      (hpc : (t.proc p).pc = .created (.forkn n i i) rc) (hrc : 0 < rc)
      (hi : i + 1 = kids.length) (hn : i < n) (hl : l = kids.map some)
  | failed {kids : List Slot} (hm : Made s p t kids) (hk : Known s p t kids)
      (hpc : (t.proc p).pc = .created (.forkn n kids.length kids.length) (-1))
      (hn : (kids.length : Int) < n) (hl : l = kids.map some ++ [none])
  | returned {kids : List Slot} (hm : Made s p t kids) (hk : Known s p t kids)
      (hpc : (t.proc p).pc = .user)
      (hr : ∃ pid es, t.trace = .ret p pid (.forkn n) kids.length :: es)
      (hn : (kids.length : Int) ≤ n)
      (hl : l = kids.map some ++ if (kids.length : Int) < n then [none] else [])

theorem making_inForkn {pc : Pc} {x y z : Int} (h : making pc = some (np, pid, .forkn x y z)) :
    inForkn pc = true := by
  unfold making at h
  split at h
  all_goals cases h
  all_goals rfl

theorem making_pending {pc : Pc} (h : making pc = some (np, pid, k)) : pending pc = some np := by
  unfold making at h
  split at h
  all_goals cases h
  all_goals rfl

theorem Inside.inForkn (h : Inside s p n t l) (hin : (t.proc p).pc ≠ .user) :
    inForkn (t.proc p).pc = true := by
  cases h with
  | looking _ _ hpc _ _ => rw [hpc]; rfl
  | linking _ _ hpc _ _ _ _ _ => exact making_inForkn hpc
  | made _ _ hpc _ _ _ _ => rw [hpc]; rfl
  | failed _ _ hpc _ _ => rw [hpc]; rfl
  | returned _ _ hpc _ _ _ => exact absurd hpc hin

theorem Made.step (h : Made s p t kids) (ht : Table t) (hpc : inForkn (t.proc p).pc = true)
    (ha : act a t = some (.ok u)) : Made s p u kids :=
  ⟨h.nodup, fun c hc => (h.kid c hc).step ht hpc ha⟩

theorem result_same (h : (u.proc p).pc = (t.proc p).pc) : result p t u = [] := by
  unfold result
  rw [h]
  split
  · next h₁ h₂ => cases h₁.symm.trans h₂
  · next h₁ h₂ => cases h₁.symm.trans h₂
  · rfl

/-- What every step keeps of a call of `forkn`. -/
structure Steady (s : Kernel) (p : Slot) (t u : Kernel) : Prop where
  made : ∀ kids, Made s p t kids → Made s p u kids
  known : ∀ kids, (∀ np, pending (t.proc p).pc = some np → np ∈ kids) → Known s p t kids →
    Known s p u kids
  pid : ∀ c, (t.proc c).state ≠ .unused → (u.proc c).state ≠ .unused →
    (u.proc c).pid = (t.proc c).pid

theorem steady (ht : Table t) (hf : Family t) (hfu : Family u)
    (hpc : inForkn (t.proc p).pc = true) (ha : act a t = some (.ok u)) :
    Steady s p t u where
  made _ hm := hm.step ht hpc ha
  known _ hlink hk := hk.step ht hf hfu ha fun _ => hlink
  pid c hu hu' := change_pid (s := t.withFails a.fails)
    (step_change (Table.withFails ht a.fails) (act_step ha) c) hu hu'

theorem Steady.idle (h : Steady s p t u) (hno : pending (t.proc p).pc = none)
    (hk : Known s p t kids) : Known s p u kids := by
  refine h.known kids ?_ hk
  intro np hnp
  rw [hno] at hnp
  cases hnp

theorem Steady.linking (h : Steady s p t u) (ht : Table t) (htu : Table u)
    (ha : act a t = some (.ok u)) (hm : Made s p t kids) (hk : Known s p t (kids ++ [np]))
    (hpc : making (t.proc p).pc = some (np, pid, .forkn n kids.length kids.length))
    (hpc' : making (u.proc p).pc = making (t.proc p).pc)
    (hn : (kids.length : Int) < n) (hnp : np ∉ kids) (hpid : (t.proc np).pid = pid)
    (hb : Begun s t np) : Inside s p n u (kids.map some) := by
  have hpend := making_pending hpc
  have hpend' : pending (u.proc p).pc = some np := making_pending (hpc'.trans hpc)
  have hsame := h.pid np (by rw [ht.used p np hpend]; decide) (by rw [htu.used p np hpend']; decide)
  have hknown : Known s p u (kids ++ [np]) := by
    refine h.known _ ?_ hk
    intro np' hnp'
    rw [hpend] at hnp'
    cases hnp'
    simp
  exact .linking (h.made _ hm) hknown (hpc'.trans hpc) hn rfl hnp (hsame.trans hpid)
    (hb.step ha hsame)

/-- Steps that leave `p` where it is in `kforkn`. -/
theorem Steady.stay (h : Steady s p t u) (ht : Table t) (htu : Table u)
    (ha : act a t = some (.ok u)) (hin : (t.proc p).pc ≠ .user)
    (hpc : (u.proc p).pc = (t.proc p).pc) (hi : Inside s p n t l) : Inside s p n u l := by
  cases hi with
  | looking hm hk hat hn hl =>
    exact .looking (h.made _ hm) (h.idle (congrArg pending hat) hk) (hpc.trans hat) hn hl
  | linking hm hk hat hn hl hnp hpid hb =>
    rw [hl]
    exact h.linking ht htu ha hm hk hat (congrArg making hpc) hn hnp hpid hb
  | made hm hk hat hrc hc hn hl =>
    exact .made (h.made _ hm) (h.idle (congrArg pending hat) hk) (hpc.trans hat) hrc hc hn hl
  | failed hm hk hat hn hl =>
    exact .failed (h.made _ hm) (h.idle (congrArg pending hat) hk) (hpc.trans hat) hn hl
  | returned _ _ hat _ _ _ => exact absurd hat hin

/-- The loop in `allocproc`, and the creation of the child in a free slot. -/
theorem Steady.looking (h : Steady s p t u) (hrt : Reach (fun _ _ => True) s t) (hp : Pids t)
    (ha : act a t = some (.ok u)) (hm : Made s p t kids) (hk : Known s p t kids)
    (hpc : (t.proc p).pc = .alloc (.forkn n kids.length kids.length) i)
    (hn : (kids.length : Int) < n)
    (hstep : Allocates (t.withFails a.fails) p (.forkn n kids.length kids.length) i u) :
    Inside s p n u (kids.map some ++ result p t u) := by
  have hmade := h.made _ hm
  have hknown := h.idle (congrArg pending hpc) hk
  cases hstep with
  | next hpc' =>
    rw [show result p t u = [] by simp [result, hpc, hpc'], List.append_nil]
    exact .looking hmade hknown hpc' hn rfl
  | none hpc' =>
    rw [show result p t u = [none] by simp [result, hpc, hpc']]
    exact .failed hmade hknown hpc' hn rfl
  | @takes np hold hcopy hpc' hnew hpid =>
    rw [show result p t u = [] by simp [result, hpc, hpc'], List.append_nil]
    have hout : np ∉ kids := by
      intro hin
      exact (hm.kid np hin).unused hold
    have hfresh : (u.proc np).pid ∉ t.born := by
      intro hin
      have hlt := (hp.born _ hin).2
      rw [hpid] at hlt
      exact lt_irrefl _ hlt
    have hbegun : Begun s u np :=
      ⟨t, a, u, hrt, ha, .refl, hold, hnew, rfl, hfresh, copyProc_saved hcopy⟩
    have hknown' : Known s p u (kids ++ [np]) :=
      hknown.mono fun c hc => List.mem_append_left [np] hc
    exact .linking hmade hknown' (by rw [hpc']; rfl) hn rfl hout hpid hbegun

/-- The child is made runnable. -/
theorem Steady.publish (h : Steady s p t u) (ht : Table t) (hf : Family t) (hp : Pids t)
    (hr : (t.proc p).state = .running) (ha : act a t = some (.ok u)) (hm : Made s p t kids)
    (hk : Known s p t (kids ++ [np]))
    (hpc : (t.proc p).pc = .publish np pid (.forkn n kids.length kids.length))
    (hn : (kids.length : Int) < n) (hnp : np ∉ kids) (hpid : (t.proc np).pid = pid)
    (hb : Begun s t np)
    (hu : u = ((t.withFails a.fails).setProc np fun x => { x with state := .runnable }).goto p
      (.created (.forkn n kids.length kids.length) pid)) :
    Inside s p n u (kids.map some ++ result p t u) := by
  have hused := ht.used p np (by rw [hpc]; rfl)
  have hne : np ≠ p := ne_of_state hused hr (by decide)
  have hproc : u.proc np = { t.proc np with state := .runnable } := by
    rw [hu, goto_of_ne hne, setProc_self]
    rfl
  have hpc' : (u.proc p).pc = .created (.forkn n kids.length kids.length) pid := by
    rw [hu, goto_self]
  have hkid : Kid s p u np := by
    refine ⟨by simp [hproc], by simp [hproc], ?_, hb.step ha (by rw [hproc])⟩
    rw [hproc]
    exact hf.published p np pid _ hpc
  have hmade : Made s p u (kids ++ [np]) := by
    have hold := h.made _ hm
    constructor
    · rw [List.nodup_append]
      refine ⟨hold.nodup, List.nodup_singleton np, ?_⟩
      intro c hc d hd
      rw [List.mem_singleton.mp hd]
      rintro rfl
      exact hnp hc
    · intro c hc
      rcases List.mem_append.mp hc with hc | hc
      · exact hold.kid c hc
      · rw [List.mem_singleton.mp hc]
        exact hkid
  have hknown : Known s p u (kids ++ [np]) := by
    refine h.known _ ?_ hk
    intro np' hnp'
    rw [hpc] at hnp'
    cases hnp'
    simp
  have hpos : 0 < pid := by
    have hborn := hp.live np (by rw [hused]; decide)
    rw [hpid] at hborn
    have hone := (hp.born pid hborn).1
    omega
  refine .made hmade hknown hpc' hpos (by simp) hn ?_
  rw [show result p t u = [some np] by simp [result, hpc, hpc'], List.map_append]
  rfl

theorem making_cases {pc : Pc} (h : making pc = some (np, pid, k)) :
    pc = .acquire (.link np pid k) ∨ pc = .crit (.link np pid k) ∨ pc = .publish np pid k := by
  unfold making at h
  split at h
  · cases h
    exact .inl rfl
  · cases h
    exact .inr (.inl rfl)
  · cases h
    exact .inr (.inr rfl)
  · cases h

/-- The way of the child from `allocproc` into the process table. -/
theorem Steady.links (h : Steady s p t u) (ht : Table t) (hf : Family t) (hp : Pids t)
    (htu : Table u) (hr : (t.proc p).state = .running) (ha : act a t = some (.ok u))
    (hgo : proceed (t.withFails a.fails) p = some (.ok u)) (hm : Made s p t kids)
    (hk : Known s p t (kids ++ [np]))
    (hpc : making (t.proc p).pc = some (np, pid, .forkn n kids.length kids.length))
    (hn : (kids.length : Int) < n) (hnp : np ∉ kids) (hpid : (t.proc np).pid = pid)
    (hb : Begun s t np) : Inside s p n u (kids.map some ++ result p t u) := by
  have hpc₀ : ((t.withFails a.fails).proc p).pc = (t.proc p).pc := rfl
  unfold proceed at hgo
  rw [hpc₀] at hgo
  rcases making_cases hpc with hat | hat | hat
  · rw [hat] at hgo
    simp only [Option.ite_none_right_eq_some] at hgo
    obtain ⟨-, hgo⟩ := hgo
    cases hgo
    have hnew : (((t.withFails a.fails).acquire p).goto p
        (.crit (.link np pid (.forkn n kids.length kids.length))) |>.proc p).pc =
        .crit (.link np pid (.forkn n kids.length kids.length)) := by rw [goto_self]
    rw [show result p t _ = [] by simp [result, hat], List.append_nil]
    exact h.linking ht htu ha hm hk hpc (by rw [hnew, hat]; rfl) hn hnp hpid hb
  · rw [hat] at hgo
    simp only [critical] at hgo
    cases hgo
    have hnew : ((link (t.withFails a.fails) p np pid
        (.forkn n kids.length kids.length)).proc p).pc =
        .publish np pid (.forkn n kids.length kids.length) := by rw [link, goto_self]
    rw [show result p t _ = [] by simp [result, hat], List.append_nil]
    exact h.linking ht htu ha hm hk hpc (by rw [hnew, hat]; rfl) hn hnp hpid hb
  · rw [hat] at hgo
    have hpub := map_ok hgo
    unfold KernelProc.publish at hpub
    split at hpub
    · exact h.publish ht hf hp hr ha hm hk hat hn hnp hpid hb (Option.some.inj hpub).symm
    · cases hpub

/-- `kfork` has succeeded: the loop goes on or ends. -/
theorem Steady.again {i rc : Int} (h : Steady s p t u)
    (hgo : proceed (t.withFails a.fails) p = some (.ok u)) (hm : Made s p t kids)
    (hk : Known s p t kids) (hpc : (t.proc p).pc = .created (.forkn n i i) rc) (hrc : 0 < rc)
    (hi : i + 1 = kids.length) (hn : i < n) : Inside s p n u (kids.map some ++ result p t u) := by
  have hmade := h.made _ hm
  have hknown := h.idle (congrArg pending hpc) hk
  have hres : result p t u = [] := by simp [result, hpc]
  have hpc₀ : ((t.withFails a.fails).proc p).pc = .created (.forkn n i i) rc := hpc
  unfold proceed at hgo
  rw [hpc₀] at hgo
  have hu := Except.ok.inj (Option.some.inj hgo)
  simp only [created, if_neg (show ¬rc < 0 by omega), if_neg (show rc ≠ 0 by omega)] at hu
  rw [hres, List.append_nil]
  by_cases hlt : i + 1 < n
  · rw [if_pos hlt] at hu
    rw [hi] at hu hlt
    refine .looking (i := 0) hmade hknown ?_ hlt rfl
    rw [← hu, goto_self]
  · rw [if_neg hlt] at hu
    refine .returned hmade hknown ?_ ⟨(t.proc p).pid, t.trace, ?_⟩ (by omega) ?_
    · rw [← hu, ret_self]
    · rw [← hu, ← hi]
      rfl
    · rw [if_neg (by omega), List.append_nil]

/-- `kfork` has failed: the loop ends. -/
theorem Steady.ends (h : Steady s p t u) (hgo : proceed (t.withFails a.fails) p = some (.ok u))
    (hm : Made s p t kids) (hk : Known s p t kids)
    (hpc : (t.proc p).pc = .created (.forkn n kids.length kids.length) (-1))
    (hn : (kids.length : Int) < n) : Inside s p n u (kids.map some ++ [none] ++ result p t u) := by
  have hres : result p t u = [] := by simp [result, hpc]
  have hpc₀ : ((t.withFails a.fails).proc p).pc =
      .created (.forkn n kids.length kids.length) (-1) := hpc
  unfold proceed at hgo
  rw [hpc₀] at hgo
  have hu := Except.ok.inj (Option.some.inj hgo)
  simp only [created, if_pos (show (-1 : Int) < 0 by decide)] at hu
  rw [hres, List.append_nil]
  refine .returned (h.made _ hm) (h.idle (congrArg pending hpc) hk) ?_
    ⟨(t.proc p).pid, t.trace, ?_⟩ (le_of_lt hn) ?_
  · rw [← hu, ret_self]
  · rw [← hu]
    rfl
  · rw [if_pos hn]

theorem Inside.step (hi : Inside s p n t l) (hrt : Reach (fun _ _ => True) s t) (ht : Table t)
    (hf : Family t) (hp : Pids t) (htu : Table u) (hfu : Family u) (hin : (t.proc p).pc ≠ .user)
    (ha : act a t = some (.ok u)) : Inside s p n u (l ++ result p t u) := by
  have hfork := hi.inForkn hin
  have hsteady := steady (s := s) ht hf hfu hfork ha
  have hstay : (u.proc p).pc = (t.proc p).pc → Inside s p n u (l ++ result p t u) := by
    intro hpc
    rw [result_same hpc, List.append_nil]
    exact hsteady.stay ht htu ha hin hpc hi
  by_cases hap : p = a.p
  · subst hap
    rcases own_act hfork ha with hpc | ⟨hr, hgo⟩
    · exact hstay hpc
    · cases hi with
      | looking hm hk hpc hn hl =>
        rw [hl]
        exact hsteady.looking hrt hp ha hm hk hpc hn (proceed_alloc hr hpc hgo)
      | linking hm hk hpc hn hl hnp hpid hb =>
        rw [hl]
        exact hsteady.links ht hf hp htu hr ha hgo hm hk hpc hn hnp hpid hb
      | made hm hk hpc hrc hc hn hl =>
        rw [hl]
        exact hsteady.again hgo hm hk hpc hrc hc hn
      | failed hm hk hpc hn hl =>
        rw [hl]
        exact hsteady.ends hgo hm hk hpc hn
      | returned _ _ hpc _ _ _ => exact absurd hpc hin
  · exact hstay (other_pc ht hfork ha hap)

theorem Forks.reach (h : Forks p s t l) : Reach (fun _ _ => True) s t := by
  induction h with
  | start => exact .refl
  | step _ _ ha ih => exact .tail ih ⟨_, trivial, ha⟩

theorem Forks.inside (hb : Booted ram s₀) (hs : Reach (fun _ _ => True) s₀ s)
    (hpc : (s.proc p).pc = .alloc (.forkn n 0 0) 0) (hn : 1 ≤ n) (h : Forks p s t l)
    (hborn : t.born.length < 2147483647) : Inside s p n t l := by
  induction h with
  | start =>
    have hmade : Made s p s [] := ⟨List.nodup_nil, by simp⟩
    have hknown : Known s p s [] := fun _ _ hc => .inr ⟨hc, rfl⟩
    exact .looking hmade hknown hpc (by simp only [List.length_nil]; omega) rfl
  | @step t u a l hrun hin ha ih =>
    have hrt := Forks.reach hrun
    have hle : (t.withFails a.fails).born.length ≤ u.born.length := born_le (act_step ha)
    have hlt : t.born.length < 2147483647 := lt_of_le_of_lt hle hborn
    obtain ⟨ht, hf⟩ := Family.reach hb (hs.trans hrt)
    obtain ⟨htu, hfu⟩ := Family.reach hb (hs.trans (.tail hrt ⟨a, trivial, ha⟩))
    exact (ih hlt).step hrt ht hf (Pids.reach hb (hs.trans hrt) hlt) htu hfu hin ha

end KernelForkn
