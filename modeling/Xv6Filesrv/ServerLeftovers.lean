import Mathlib.Data.List.Induction
import Xv6Filesrv.ServerFailures

/-!
# What `RENAMEFILE` and `COPYFILE` leave behind

Both make the directories that lead to the destination, and `COPYFILE` empties the destination,
before the step that fails.  Nothing is left behind exactly if there was nothing to make and nothing
to empty: from every other state some run fails and leaves a trace.
-/

namespace ServerLeftovers

open FileTree ServerResp ServerPaths ServerOps ServerCalls ServerFiles ServerReliable ServerStorage
  ServerFailures Programs Programs.Prog ProgramRuns

variable {env : Env} {m m' m₁ : Machine} {α : Type} {client src dst : Bytes}
  {t : Tree Bytes Bytes}

/-! ## All parents -/

theorem parentDirs_concat (s : Bytes) (c : UInt8) :
    parentDirs (s ++ [c]) = parentDirs s ++ if c = 47 ∧ s ≠ [] then [s] else [] := by
  have hold : ∀ i ∈ List.range s.length,
      decide (0 < i ∧ (s ++ [c])[i]? = some 47) = decide (0 < i ∧ s[i]? = some 47) := by
    intro i hi
    rw [List.getElem?_append_left (List.mem_range.mp hi)]
  have htake : ∀ i ∈ (List.range s.length).filter fun i => 0 < i ∧ s[i]? = some 47,
      (s ++ [c]).take i = s.take i := by
    intro i hi
    have hlt := List.mem_range.mp (List.mem_of_mem_filter hi)
    exact List.take_append_of_le_length (Nat.le_of_lt hlt)
  unfold parentDirs
  rw [List.length_append, List.length_singleton, List.range_succ, List.filter_append,
    List.map_append, List.filter_congr hold, List.map_congr_left htake]
  congr 1
  rw [List.filter_cons, List.filter_nil]
  simp only [List.getElem?_concat_length, Option.some.injEq, List.length_pos_iff, decide_eq_true_eq,
    and_comm]
  split <;> simp

theorem mkdirs_append (xs ys : List Bytes) :
    mkdirs (xs ++ ys) = mkdirs xs >>= fun ok => if ok then mkdirs ys else pure false := by
  induction xs with
  | nil => rfl
  | cons d xs ih =>
    rw [List.cons_append, mkdirs, mkdirs, ih]
    change Prog.bind _ _ = Prog.bind (Prog.bind _ _) _
    rw [bind_assoc]
    congr 1
    funext made
    cases made with
    | true => rfl
    | false =>
      change Prog.bind _ _ = Prog.bind (Prog.bind _ _) _
      rw [bind_assoc]
      congr 1
      funext e
      split <;> rfl

theorem resolve_singleton {rel : Bytes} (h : 47 ∉ rel) :
    resolve rel = if rel ≠ [] ∧ rel ≠ [46] then [rel] else [] := by
  unfold resolve
  rw [List.splitOn_eq_singleton h, List.filter_cons, List.filter_nil]
  simp only [decide_eq_true_eq]

/-- What stands directly above a path is found by a path that ends at a slash, or is the data
directory. -/
theorem resolve_parent {k : List Bytes} {name : Bytes} (rel : Bytes)
    (h : resolve rel = k ++ [name]) :
    k = [] ∨ ∃ rel' rest, rel = rel' ++ 47 :: rest ∧ resolve rel' = k := by
  induction hn : rel.length using Nat.strongRecOn generalizing rel with
  | _ n ih =>
    by_cases hslash : 47 ∈ rel
    · -- the last slash
      obtain ⟨xs, ys, hsplit, hlast⟩ :=
        List.eq_append_cons_of_mem (List.mem_reverse.mpr hslash)
      have hrel : rel = ys.reverse ++ 47 :: xs.reverse := by
        rw [← List.reverse_reverse rel, hsplit]
        simp
      have hlast' : 47 ∉ xs.reverse := by simpa using hlast
      have hresolve : resolve rel = resolve ys.reverse ++ resolve xs.reverse := by
        rw [hrel, resolve_append]
      rw [hresolve, resolve_singleton hlast'] at h
      split at h
      · exact .inr ⟨_, _, hrel, (List.append_inj' h rfl).1⟩
      · rw [List.append_nil] at h
        have hshort : ys.reverse.length < n := by
          rw [← hn, hrel, List.length_append, List.length_cons]
          omega
        rcases ih _ hshort _ h rfl with hk | ⟨rel', rest, hys, hk⟩
        · exact .inl hk
        · refine .inr ⟨rel', rest ++ 47 :: xs.reverse, ?_, hk⟩
          rw [hrel, hys]
          simp
    · rw [resolve_singleton hslash] at h
      split at h
      · have hone : [] ++ [rel] = k ++ [name] := h
        exact .inl (List.append_inj' hone rfl).1.symm
      · simp at h

/-- No file stands in the way of a directory that leads to `path`. -/
def Clear (t : Tree Bytes Bytes) (path : Bytes) : Prop :=
  ∀ rel rest, path = rel ++ 47 :: rest → ∀ b, t.node (resolve rel) ≠ some (.file b)

/-- A directory that can be made is one of many, and nothing stands in the way of any of them. -/
theorem clear_of_new {path : Bytes} (h : ¬ NoNew t path) : Clear t path ∧
    ∃ rel rest, path = rel ++ 47 :: rest ∧ t.node (resolve rel) = none := by
  simp only [NoNew, Barred, not_forall, not_exists, not_and] at h
  obtain ⟨rel, rest, hpath, hnone, hclear⟩ := h
  refine ⟨?_, rel, rest, hpath, hnone⟩
  intro rel' rest' hpath' b hfile
  rw [hpath] at hpath'
  rcases List.append_eq_append_iff.mp hpath' with ⟨as, has, hrest⟩ | ⟨as, has, hrest⟩
  · -- `rel'` is at `rel` or below it, where there is nothing
    have hpre : resolve rel <+: resolve rel' := by
      cases as with
      | nil =>
        have heq : rel' = rel := has.trans (List.append_nil rel)
        exact heq ▸ List.prefix_refl (resolve rel)
      | cons c as =>
        cases (List.cons.inj hrest).1
        rw [has]
        exact resolve_above
    refine Tree.found_above ?_ hpre hnone
    rw [hfile]
    exact Option.some_ne_none _
  · -- `rel'` is above `rel`
    have hpre : resolve rel' <+: resolve rel := by
      cases as with
      | nil =>
        have heq : rel = rel' := has.trans (List.append_nil rel')
        exact heq ▸ List.prefix_refl (resolve rel')
      | cons c as =>
        cases (List.cons.inj hrest).1
        rw [has]
        exact resolve_above
    exact hclear _ b hpre hfile

/-- All directories on the way to `rel` were made. -/
structure Dug (rel : Bytes) (m m' : Machine) : Prop where
  out : m'.out = m.out
  handles : m'.handles = m.handles
  adds : m.tree.AddsDirs m'.tree
  made : ∀ rel' rest, rel = rel' ++ 47 :: rest → m'.tree.node (resolve rel') = some .dir

/-- Directories of which it is said that they exist. -/
theorem can_mkdirs_existing (dirs : List Bytes) (m : Machine) :
    Can (Steady env) (fun ok m' => ok = true ∧ m'.out = m.out ∧ m'.handles = m.handles ∧
      m'.tree = m.tree) (mkdirs dirs) m := by
  induction dirs generalizing m with
  | nil => exact Can.pure ⟨rfl, rfl, rfl, rfl⟩
  | cons d dirs ih =>
    refine can_refuse (c := .mkdir d) (r := false) .eexist rfl trivial ?_
    apply can_errno
    exact ih _

/-- Where nothing stands in the way, a directory is made or exists. -/
theorem can_mkdir {d rel : Bytes} (hb : below env.dataDir d = some rel)
    (hclear : ∀ b, m.tree.node (resolve rel) ≠ some (.file b))
    (hparent : ∀ k name, resolve rel = k ++ [name] → m.tree.node k = some .dir) :
    Can (Steady env) (fun ok m' => ok = true ∧ m'.out = m.out ∧ m'.handles = m.handles ∧
      m.tree.AddsDirs m'.tree ∧ m'.tree.node (resolve rel) = some .dir) (mkdirs [d]) m := by
  cases hnode : m.tree.node (resolve rel) with
  | some x =>
    cases x with
    | file b => exact absurd hnode (hclear b)
    | dir =>
      refine (can_mkdirs_existing [d] m).mono ?_
      rintro ok m' ⟨rfl, hout, hhandles, htree⟩
      rw [htree]
      exact ⟨rfl, hout, hhandles, .refl _, hnode⟩
  | none =>
    have hroom : m.tree.Room (resolve rel) := by
      have hne : resolve rel ≠ [] := by
        intro hnil
        rw [hnil, m.tree.root] at hnode
        cases hnode
      have hkey := (List.dropLast_concat_getLast hne).symm
      exact ⟨⟨_, _, hkey, hparent _ _ hkey⟩, by simp [hnode]⟩
    refine can_call (c := .mkdir d) (r := true)
      ⟨.inl ⟨rel, hb, rfl, hnode, hroom, rfl⟩, trivial⟩ ?_
    exact Can.pure ⟨rfl, rfl, rfl, Tree.addsDirs_put hroom hnode, Tree.put_self _ hroom⟩

theorem slash_concat {rel rel' rest : Bytes} {c : UInt8} (h : rel ++ [c] = rel' ++ 47 :: rest) :
    rel = rel' ∧ c = 47 ∨ ∃ rest', rel = rel' ++ 47 :: rest' := by
  rcases List.eq_nil_or_concat rest with rfl | ⟨rest', x, rfl⟩
  · obtain ⟨hrel, hc⟩ := List.append_inj' h rfl
    exact .inl ⟨hrel, List.singleton_inj.mp hc⟩
  · rw [List.concat_eq_append, ← List.cons_append, ← List.append_assoc] at h
    exact .inr ⟨rest', (List.append_inj' h rfl).1⟩

theorem can_dig (env : Env) (rel : Bytes) (hclear : Clear m.tree rel) :
    Can (Steady env) (fun ok m' => ok = true ∧ Dug rel m m')
      (mkdirs (parentDirs (env.dataDir ++ 47 :: rel))) m := by
  induction rel using List.reverseRecOn with
  | nil =>
    refine (can_mkdirs_existing _ m).mono ?_
    rintro ok m' ⟨rfl, hout, hhandles, htree⟩
    exact ⟨rfl, hout, hhandles, htree ▸ .refl _, by simp⟩
  | append_singleton rel c ih =>
    have hshorter : Clear m.tree rel := by
      intro rel' rest hrel
      exact hclear rel' (rest ++ [c]) (by rw [hrel]; simp)
    have hdirs := parentDirs_concat (env.dataDir ++ 47 :: rel) c
    rw [List.append_assoc, List.cons_append] at hdirs
    rw [hdirs, mkdirs_append]
    apply Can.bind
    refine (ih hshorter).mono ?_
    rintro ok m₁ ⟨rfl, h₁⟩
    rw [if_pos rfl]
    by_cases hc : c = 47
    · subst hc
      have hnone : env.dataDir ++ 47 :: rel ≠ [] := by simp
      have hbelow : below env.dataDir (env.dataDir ++ 47 :: rel) = some rel := by
        simp [below]
      have hfree : ∀ b, m₁.tree.node (resolve rel) ≠ some (.file b) := by
        intro b hfile
        exact hclear rel [] rfl b (h₁.adds.file_iff.mp hfile)
      have hparent : ∀ k name, resolve rel = k ++ [name] → m₁.tree.node k = some .dir := by
        intro k name hk
        rcases resolve_parent rel hk with rfl | ⟨rel', rest, hrel, rfl⟩
        · exact m₁.tree.root
        · exact h₁.made rel' rest hrel
      rw [if_pos ⟨rfl, hnone⟩]
      refine (can_mkdir hbelow hfree hparent).mono ?_
      rintro ok m₂ ⟨rfl, hout, hhandles, hadds, hdir⟩
      refine ⟨rfl, hout.trans h₁.out, hhandles.trans h₁.handles, h₁.adds.trans hadds, ?_⟩
      intro rel' rest hrel
      rcases slash_concat hrel with ⟨rfl, -⟩ | ⟨rest', hrel'⟩
      · exact hdir
      · exact hadds.found (h₁.made rel' rest' hrel')
    · rw [if_neg fun h => hc h.1]
      refine Can.pure ⟨rfl, h₁.out, h₁.handles, h₁.adds, fun rel' rest hrel => ?_⟩
      rcases slash_concat hrel with ⟨-, hslash⟩ | ⟨rest', hrel'⟩
      · exact absurd hslash hc
      · exact h₁.made rel' rest' hrel'

theorem parents_build {path full : Bytes} (h : pathBuild env.dataDir path pathMax = some full) :
    pathEnsureParentDirs full = mkdirs (parentDirs (env.dataDir ++ 47 :: path)) := by
  have hfits := pathBuild_fits h
  rw [pathEnsureParentDirs, snprintf, if_neg (by omega), below_eq (below_build h)]

/-! ## `RENAMEFILE` -/

/-- A program that sends nothing and leaves the files alone. -/
def Fixed (env : Env) (p : Server α) : Prop :=
  ∀ m, wp (steady env) p (fun _ m' => m'.out = m.out ∧ m'.tree = m.tree) m

theorem fixed_guarding : Guarding (Fixed env) where
  pure _ _ := wp_pure ⟨rfl, rfl⟩
  bind hp hf m := wp_bind ((hp m).mono fun a m₁ h₁ => (hf a m₁).mono fun _ _ h₂ =>
    ⟨h₂.1.trans h₁.1, h₂.2.trans h₁.2⟩)
  guards c hc m := by
    refine wp_perform trivial fun r m' hx => ?_
    rcases hx.1 with heffect | ⟨-, e, p, rfl⟩ | hcut
    · obtain ⟨-, htree, -, -, hout⟩ := Effect.frame heffect
      cases c <;> first | exact hc.elim | exact ⟨hout not_false, htree not_false⟩
    · exact ⟨rfl, rfl⟩
    · cases c <;> first | exact hc.elim | exact hcut.elim

section TwoPaths

variable {srcFull dstFull : Bytes} (hsrc : pathBuild env.dataDir src pathMax = some srcFull)
  (hdst : pathBuild env.dataDir dst pathMax = some dstFull)

include hsrc hdst

theorem wp_withTwoPaths {command : String} {refused : Bytes}
    {body : Bytes → Bytes → TwoLocks → Server Bool}
    (h : ∀ locks m₁, m₁.out = m.out → m₁.tree = m.tree →
      wp (steady env) (body srcFull dstFull locks) (fun _ => Spared env m) m₁) :
    wp (steady env) (withTwoPaths env client command src dst refused body)
      (fun _ => Spared env m) m := by
  unfold withTwoPaths
  rw [hsrc, hdst]
  apply wp_bind
  refine (fixed_guarding.acquireTwo srcFull dstFull m).mono ?_
  rintro locks m₁ ⟨hout, htree⟩
  cases locks with
  | none =>
    refine Harmless.spares ?_ (htree ▸ .refl _)
    exact (quiet_log client command src "ERR" _).harmless.bind fun _ => harmless_replyLine _ _
  | some locks => exact h locks m₁ hout htree

theorem wp_renamefile (hnew : NoNew m.tree dst) :
    wp (steady env) (opRenamefile env client src dst) (fun _ => Spared env m) m := by
  apply wp_withTwoPaths hsrc hdst
  intro locks m₁ hout₁ htree₁
  apply wp_bind
  refine (wp_ensureParentDirs (below_build hdst) m₁).mono ?_
  rintro made m₂ ⟨hout₂, -, -, hbarred⟩
  have htree₂ : m₂.tree = m.tree := by rw [hbarred (htree₁ ▸ hnew), htree₁]
  cases made with
  | false => exact (harmless_lastError locks "RENAMEFILE" src).spares (htree₂ ▸ .refl _)
  | true =>
    apply wp_bind
    refine wp_perform trivial fun done m₃ hx => ?_
    rcases hx.1 with ⟨a, b, -, -, rfl, -, hmoved⟩ | ⟨rfl, e, p, rfl⟩ | hcut
    · have hout₃ : m₃.out = m₂.out := Does.out hx.1 not_false
      refine (wp_success (hout₃.trans (hout₂.trans hout₁))).mono fun _ m' hnot href => ?_
      exact absurd href hnot
    · exact (harmless_lastError locks "RENAMEFILE" src).spares (htree₂ ▸ .refl _)
    · exact hcut.elim

variable (hshort : ∀ e, (env.strerror e).length < 500)

include hshort

/-- A directory that was made on the way stays when the file cannot be renamed. -/
theorem can_renamefile (hnew : ¬ NoNew m.tree dst) :
    Can (Steady env) (fun _ m' => Refuses m m' ∧ ¬ Same env m.tree m'.tree)
      (opRenamefile env client src dst) m := by
  obtain ⟨hclear, rel, rest, hpath, hnone⟩ := clear_of_new hnew
  apply can_withTwoPaths hsrc hdst
  intro locks m₁ hout₁ htree₁
  apply Can.bind
  rw [parents_build hdst]
  refine (can_dig env dst (htree₁ ▸ hclear)).mono ?_
  rintro _ m₂ ⟨rfl, h₂⟩
  refine can_refuse (c := .rename srcFull dstFull) (r := false) .enoent rfl trivial ?_
  apply can_errno
  refine (can_failTwo (hshort _) locks "RENAMEFILE" src _).mono ?_
  rintro _ m₃ ⟨⟨text, hout₃⟩, hkept⟩
  refine ⟨⟨text, ?_⟩, hkept.dir_new hnone (h₂.made rel rest hpath)⟩
  rw [hout₃, ← hout₁, ← h₂.out]

end TwoPaths

/-! ## `COPYFILE` -/

/-- The path can be opened for reading. -/
def Readable (t : Tree Bytes Bytes) (path : Bytes) : Prop :=
  t.node (resolve path) = some .dir ∨ Bare path ∧ t.node (resolve path) ≠ none

/-- There is nothing that could be read. -/
def Barren (t : Tree Bytes Bytes) (key : List Bytes) : Prop :=
  t.node key = some .dir ∨ t.node key = some (.file [])

/-- Both files are open, and nothing but the log can have changed. -/
structure Shields (env : Env) (a b : Nat) (src dst : List Bytes) (m m' : Machine) : Prop where
  out : m'.out = m.out
  source : ∃ pos, m'.handle a = some ⟨src, .read, pos⟩
  target : ∃ pos, m'.handle b = some ⟨dst, .write, pos⟩
  tree : dst = logKey env ∧ m.tree.node dst ≠ some .dir ∧
      (∀ k, k ≠ dst → m'.tree.node k = m.tree.node k) ∧ (∃ c, m'.tree.node dst = some (.file c)) ∨
    Barren m.tree src ∧ ∀ k, m'.tree.node k = m.tree.node k

theorem Shields.same {a b : Nat} {s d : List Bytes} (h : Shields env a b s d m m') :
    Same env m.tree m'.tree := by
  intro k
  rcases h.tree with ⟨hlog, hnot, hothers, hfile⟩ | ⟨-, hall⟩
  · by_cases hk : k = d
    · rw [hk]
      exact .inr ⟨hlog, hnot, hfile⟩
    · exact .inl (hothers k hk)
  · exact .inl (hall k)

theorem wp_copyLoop {a b : Nat} {s d : List Bytes} (hab : b ≠ a) (h : Shields env a b s d m m₁) :
    wp (steady env) (copyLoop a b) (fun _ => Shields env a b s d m) m₁ := by
  apply wp_iterate (fun _ => Shields env a b s d m) h
  intro _ m₂ h₂
  obtain ⟨pos, hpos⟩ := h₂.source
  obtain ⟨pos', hpos'⟩ := h₂.target
  apply wp_bind
  refine wp_perform trivial fun r m₃ hx => ?_
  rcases hx.1 with ⟨key, p, content, data, hfd, hfile, rfl, hdata, -, rfl⟩ | ⟨rfl, e, p, rfl⟩ | hcut
  · rw [hpos] at hfd
    cases hfd
    have htarget : (m₂.setHandle a ⟨s, .read, pos + data.length⟩).handle b =
        some ⟨d, .write, pos'⟩ := by
      rw [Machine.handle_set, if_neg hab, hpos']
    have h₃ : Shields env a b s d m (m₂.setHandle a ⟨s, .read, pos + data.length⟩) :=
      ⟨h₂.out, ⟨_, Machine.handle_set_self _ a _⟩, ⟨_, htarget⟩, h₂.tree⟩
    simp only
    split
    · exact wp_pure h₃
    · next hne =>
      apply wp_bind
      refine (wp_writeLoop data htarget).mono ?_
      rintro _ m₄ ⟨rfl, hwrote⟩
      refine wp_pure ⟨hwrote.out.trans h₂.out, ⟨pos + data.length, ?_⟩, hwrote.handle, ?_⟩
      · rw [hwrote.others a hab.symm, Machine.handle_set_self]
      · rcases h₂.tree with ⟨hlog, hnot, hothers, hlogged⟩ | ⟨hbarren, hall⟩
        · refine .inl ⟨hlog, hnot, fun k hk => ?_, hwrote.file hlogged⟩
          rw [hwrote.tree k hk]
          exact hothers k hk
        · -- nothing was read
          rw [hall] at hfile
          rcases hbarren with hdir | hempty
          · rw [hdir] at hfile
            cases hfile
          · rw [hempty] at hfile
            cases hfile
            simp at hdata
            exact absurd hdata hne
  · have h₃ : Shields env a b s d m { m₂ with errno := e, patience := p } :=
      ⟨h₂.out, h₂.source, h₂.target, h₂.tree⟩
    apply wp_errno
    split <;> exact wp_pure h₃
  · exact hcut.elim

theorem harmless_closeLast (a : Nat) (locks : TwoLocks) (target : Bytes) :
    Harmless env (do
      let e ← ask .errno
      let _ ← ask (.close a)
      failTwo env client locks "COPYFILE" target e) :=
  (quiet_ask .errno ⟨trivial, not_false⟩).harmless.bind fun e =>
    (quiet_ask (.close a) ⟨trivial, not_false⟩).harmless.bind fun _ =>
      harmless_failTwo locks "COPYFILE" target e

theorem harmless_failCopy (a b : Nat) (locks : TwoLocks) (target : Bytes) :
    Harmless env (failCopy env client a b locks target) :=
  (quiet_ask .errno ⟨trivial, not_false⟩).harmless.bind fun e =>
    (quiet_ask (.close a) ⟨trivial, not_false⟩).harmless.bind fun _ =>
      (quiet_ask (.close b) ⟨trivial, not_false⟩).harmless.bind fun _ =>
        harmless_failTwo locks "COPYFILE" target e

theorem harmless_noSource (locks : TwoLocks) :
    Harmless env (do
      let e ← ask .errno
      locksReleaseTwo locks
      if e = .enoent then do
        loggerLog client "COPYFILE" src "MISS" (ascii "source not found")
        respReplyError (ascii "source file not found")
      else replyFailure client "COPYFILE" src (env.strerror e)) := by
  refine (quiet_ask .errno ⟨trivial, not_false⟩).harmless.bind fun e => ?_
  refine (quiet_locking.releaseTwo locks).harmless.bind fun _ => ?_
  split
  · exact (quiet_log client "COPYFILE" src "MISS" _).harmless.bind fun _ => harmless_replyLine _ _
  · exact harmless_replyFailure "COPYFILE" src _

/-- When `COPYFILE` leaves nothing behind if it fails: the source cannot be opened, or no
directories are made and the destination cannot be opened, is the log, or is empty and stays so. -/
def Undoes (env : Env) (src dst : Bytes) (t : Tree Bytes Bytes) : Prop :=
  ¬ Readable t src ∨ NoNew t dst ∧
    (¬ (Bare dst ∧ t.Room (resolve dst)) ∨ resolve dst = logKey env ∨
      t.node (resolve dst) = some (.file []) ∧ Barren t (resolve src))

/-- Both files could be opened. -/
theorem shields_opened {a b : Nat} (hab : b ≠ a) (htree : m₁.tree = m.tree) (hout : m₁.out = m.out)
    (ha : ∃ pos, m₁.handle a = some ⟨resolve src, .read, pos⟩) (hroom : m₁.tree.Room (resolve dst))
    (h : resolve dst = logKey env ∨
      m.tree.node (resolve dst) = some (.file []) ∧ Barren m.tree (resolve src)) :
    Shields env a b (resolve src) (resolve dst) m
      ((m₁.putFile (resolve dst) [] hroom).setHandle b ⟨resolve dst, .write, 0⟩) := by
  obtain ⟨pos, hpos⟩ := ha
  refine ⟨hout, ⟨pos, ?_⟩, ⟨0, Machine.handle_set_self _ b _⟩, ?_⟩
  · rw [Machine.handle_set, if_neg hab.symm]
    exact hpos
  · rcases h with hlog | ⟨hempty, hbarren⟩
    · refine .inl ⟨hlog, htree ▸ hroom.free, fun k hk => ?_, [], Tree.put_self _ hroom⟩
      rw [← htree]
      exact Tree.put_other _ hroom hk
    · refine .inr ⟨hbarren, fun k => ?_⟩
      by_cases hk : k = resolve dst
      · rw [hk, hempty]
        exact Tree.put_self _ hroom
      · rw [← htree]
        exact Tree.put_other _ hroom hk

theorem can_writeLoop {fd : Nat} (key : List Bytes) (data : Bytes)
    (h : m.handle fd = some ⟨key, .write, 0⟩) (hfile : m.tree.node key = some (.file [])) :
    Can (Steady env) (fun ok m' => ok = true ∧ m'.out = m.out ∧
      m'.tree.node key = some (.file data)) (writeLoop fd data) m := by
  have hm : Working fd ⟨key, .write, 0⟩ (m.closeHandle fd) m := ⟨h, Did.refl _⟩
  refine (can_of_ends (ends_writeLoop data hm (puts_same hfile))).mono ?_
  rintro ok m' ⟨rfl, ⟨_, hm'⟩, hputs⟩
  exact ⟨rfl, hm'.done.silent, hputs.self⟩

theorem Readable.exists_bytes (h : Readable t src) (hbarren : ¬ Barren t (resolve src)) :
    ∃ content, t.node (resolve src) = some (.file content) ∧ content ≠ [] := by
  cases hnode : t.node (resolve src) with
  | none =>
    rcases h with hdir | ⟨-, hfound⟩
    · rw [hnode] at hdir
      cases hdir
    · exact absurd hnode hfound
  | some x =>
    cases x with
    | dir => exact absurd (.inl hnode) hbarren
    | file content =>
      refine ⟨content, rfl, ?_⟩
      rintro rfl
      exact hbarren (.inr hnode)

theorem can_failRead {a b : Nat} (m : Machine) :
    Can (Steady env) (fun result m' => result = .readFailed ∧ m'.out = m.out ∧ m'.tree = m.tree)
      (copyLoop a b) m := by
  apply Can.iterate
  refine can_refuse (c := .read a copyBufSize) (r := none) .enoent rfl trivial ?_
  apply can_errno
  exact Can.pure ⟨rfl, rfl, rfl⟩

/-- The destination is emptied or written, and then a call of `read` fails. -/
theorem can_copyLoop {a b : Nat} (hab : b ≠ a) (htree : m₁.tree = m.tree)
    (ha : m₁.handle a = some ⟨resolve src, .read, 0⟩) (hroom : m₁.tree.Room (resolve dst))
    (hread : Readable m.tree src)
    (hnot : ¬ (m.tree.node (resolve dst) = some (.file []) ∧ Barren m.tree (resolve src))) :
    Can (Steady env) (fun result m' => result = .readFailed ∧ m'.out = m₁.out ∧
        m'.tree.node (resolve dst) ≠ m.tree.node (resolve dst)) (copyLoop a b)
      ((m₁.putFile (resolve dst) [] hroom).setHandle b ⟨resolve dst, .write, 0⟩) := by
  by_cases hempty : m.tree.node (resolve dst) = some (.file [])
  · have hbarren : ¬ Barren m.tree (resolve src) := fun hb => hnot ⟨hempty, hb⟩
    obtain ⟨content, hfile, hne⟩ := hread.exists_bytes hbarren
    have hother : resolve src ≠ resolve dst := by
      intro he
      rw [he, hempty] at hfile
      cases hfile
      exact hne rfl
    have hdata : content.take copyBufSize ≠ [] := by
      simpa [copyBufSize] using hne
    apply Can.iterate
    refine can_call (c := .read a copyBufSize) (r := some (content.take copyBufSize))
      ⟨.inl ⟨resolve src, 0, content, _, ?_, ?_, rfl, List.prefix_refl _, id, rfl⟩, trivial⟩ ?_
    · rw [Machine.handle_set, if_neg hab.symm]
      exact ha
    · rw [← hfile, ← htree]
      exact Tree.put_other _ hroom hother
    · simp only [if_neg hdata]
      apply Can.bind
      refine (can_writeLoop (resolve dst) _ ?_ ?_).mono ?_
      · rw [Machine.handle_set, if_neg hab, Machine.handle_set_self]
      · exact Tree.put_self _ hroom
      · rintro _ m₂ ⟨rfl, hout₂, hwritten⟩
        apply Can.pure
        refine (can_failRead m₂).mono ?_
        rintro result m₃ ⟨rfl, hout₃, htree₃⟩
        refine ⟨rfl, hout₃.trans hout₂, ?_⟩
        rw [htree₃, hwritten, hempty]
        simpa using hdata
  · refine (can_failRead _).mono ?_
    rintro result m₂ ⟨rfl, hout₂, htree₂⟩
    refine ⟨rfl, hout₂, ?_⟩
    rw [htree₂]
    intro he
    exact hempty (he.symm.trans (Tree.put_self _ hroom))

section Copy

variable {srcFull dstFull : Bytes} (hsrc : pathBuild env.dataDir src pathMax = some srcFull)
  (hdst : pathBuild env.dataDir dst pathMax = some dstFull)

include hsrc hdst

theorem wp_copyfile (h : Undoes env src dst m.tree) :
    wp (steady env) (opCopyfile env client src dst) (fun _ => Spared env m) m := by
  apply wp_withTwoPaths hsrc hdst
  intro locks m₁ hout₁ htree₁
  apply wp_bind
  refine wp_perform trivial fun f m₂ hx => ?_
  rcases hx.1 with ⟨rel, a, hb, rfl, -, hread, rfl⟩ | ⟨rfl, e, p, rfl⟩ | hcut
  · rw [below_build hsrc] at hb
    cases hb
    rcases h with hnot | ⟨hnew, hcond⟩
    · exact absurd (htree₁ ▸ hread) hnot
    · apply wp_bind
      refine (wp_ensureParentDirs (below_build hdst) _).mono ?_
      rintro made m₃ ⟨hout₃, hhandles₃, -, hbarred⟩
      have htree₃ : m₃.tree = m.tree := (hbarred (htree₁ ▸ hnew)).trans htree₁
      have hhandle₃ : m₃.handle a = some ⟨resolve src, .read, 0⟩ := by
        rw [Machine.handle, hhandles₃]
        exact Machine.handle_set_self m₁ a _
      cases made with
      | false => exact (harmless_closeLast a locks dst).spares (htree₃ ▸ .refl _)
      | true =>
        apply wp_bind
        refine wp_perform trivial fun f m₄ hx => ?_
        rcases hx.1 with ⟨rel, b, hb, rfl, hfree, hbare, hroom, rfl⟩ | ⟨rfl, e, p, rfl⟩ | hcut
        · rw [below_build hdst] at hb
          cases hb
          have hab : b ≠ a := by
            rintro rfl
            rw [hhandle₃] at hfree
            cases hfree
          have hopen := hcond.resolve_left fun hno => hno ⟨hbare, htree₃ ▸ hroom⟩
          have hshields := shields_opened hab htree₃ (hout₃.trans hout₁) ⟨0, hhandle₃⟩
            hroom hopen
          apply wp_bind
          refine (wp_copyLoop hab hshields).mono fun result m₅ h₅ => ?_
          cases result with
          | readFailed => exact (harmless_failCopy a b locks src).spares h₅.same
          | writeFailed => exact (harmless_failCopy a b locks dst).spares h₅.same
          | done =>
            apply wp_bind
            refine wp_perform trivial fun synced m₆ hx => ?_
            have hsynced : synced = true := hx.2
            subst hsynced
            have hout₆ : m₆.out = m.out := (Does.out hx.1 not_false).trans h₅.out
            refine (quiet_ask (.close a) ⟨trivial, not_false⟩).wp_bind fun _ m₇ h₇ => ?_
            refine (quiet_ask (.close b) ⟨trivial, not_false⟩).wp_bind fun _ m₈ h₈ => ?_
            refine (wp_success (h₈.out.trans (h₇.out.trans hout₆))).mono fun _ m' hnot href => ?_
            exact absurd href hnot
        · exact (harmless_closeLast a locks dst).spares (htree₃ ▸ .refl _)
        · exact hcut.elim
  · exact (harmless_noSource locks).spares (htree₁ ▸ .refl _)
  · exact hcut.elim

variable (hshort : ∀ e, (env.strerror e).length < 500)

include hshort

/-- A new directory, or what became of the destination, stays when the copy fails. -/
theorem can_copyfile (h : ¬ Undoes env src dst m.tree) :
    Can (Steady env) (fun _ m' => Refuses m m' ∧ ¬ Same env m.tree m'.tree)
      (opCopyfile env client src dst) m := by
  rw [Undoes, not_or, not_not] at h
  obtain ⟨hread, hcond⟩ := h
  apply can_withTwoPaths hsrc hdst
  intro locks m₁ hout₁ htree₁
  obtain ⟨a, ha⟩ := m₁.exists_free
  refine can_call (c := .open srcFull .read) (r := some a)
    ⟨.inl ⟨src, a, below_build hsrc, rfl, ha, htree₁ ▸ hread, rfl⟩, trivial⟩ ?_
  apply Can.bind
  rw [parents_build hdst]
  by_cases hnew : NoNew m.tree dst
  · replace hcond := not_and.mp hcond hnew
    rw [not_or, not_not, not_or] at hcond
    obtain ⟨⟨hbare, hroom⟩, hlog, hnot⟩ := hcond
    refine (can_mkdirs_existing _ _).mono ?_
    rintro _ m₃ ⟨rfl, hout₃, hhandles₃, htree₃⟩
    replace htree₃ : m₃.tree = m.tree := htree₃.trans htree₁
    obtain ⟨b, hb⟩ := m₃.exists_free
    have hhandle₃ : m₃.handle a = some ⟨resolve src, .read, 0⟩ := by
      rw [Machine.handle, hhandles₃]
      exact Machine.handle_set_self m₁ a _
    have hab : b ≠ a := by
      rintro rfl
      rw [hhandle₃] at hb
      cases hb
    rw [← htree₃] at hroom
    refine can_call (c := .open dstFull .write) (r := some b)
      ⟨.inl ⟨dst, b, below_build hdst, rfl, hb, hbare, hroom, rfl⟩, trivial⟩ ?_
    apply Can.bind
    refine (can_copyLoop hab htree₃ hhandle₃ hroom hread hnot).mono ?_
    rintro _ m₅ ⟨rfl, hout₅, hne⟩
    refine can_errno (can_close (can_close ?_))
    refine (can_failTwo (hshort _) locks "COPYFILE" src _).mono ?_
    rintro _ m₆ ⟨⟨text, hout₆⟩, hkept⟩
    refine ⟨⟨text, ?_⟩, hkept.changed hlog hne⟩
    rw [hout₆, ← hout₁]
    exact congrArg (· ++ errorReply text) (hout₅.trans hout₃)
  · obtain ⟨hclear, rel, rest, hpath, hnone⟩ := clear_of_new hnew
    refine (can_dig env dst (m := m₁.setHandle a _) (htree₁ ▸ hclear)).mono ?_
    rintro _ m₃ ⟨rfl, h₃⟩
    refine can_refuse (c := .open dstFull .write) (r := none) .enoent rfl trivial ?_
    refine can_errno (can_close ?_)
    refine (can_failTwo (hshort _) locks "COPYFILE" dst _).mono ?_
    rintro _ m₄ ⟨⟨text, hout₄⟩, hkept⟩
    refine ⟨⟨text, ?_⟩, hkept.dir_new hnone (h₃.made rel rest hpath)⟩
    rw [hout₄, ← hout₁]
    exact congrArg (· ++ errorReply text) h₃.out

end Copy

/-- Whenever `RENAMEFILE` or `COPYFILE` is answered with an error, nothing but the log has changed,
exactly if `RENAMEFILE` has no directories to make, and if `COPYFILE` has none to make and no
destination to empty. -/
theorem refused_leaves_nothing_iff (client : Bytes) {srcFull dstFull : Bytes}
    (hsrc : pathBuild env.dataDir src pathMax = some srcFull)
    (hdst : pathBuild env.dataDir dst pathMax = some dstFull)
    (hshort : ∀ e, (env.strerror e).length < 500) :
    ((∀ b m', Runs (Steady env) ((Operation.renamefile src dst).run env client) m b m' →
      Refuses m m' → Same env m.tree m'.tree) ↔ NoNew m.tree dst) ∧
    ((∀ b m', Runs (Steady env) ((Operation.copyfile src dst).run env client) m b m' →
      Refuses m m' → Same env m.tree m'.tree) ↔ Undoes env src dst m.tree) := by
  refine ⟨⟨fun h => ?_, fun h b m' hrun => ?_⟩, ⟨fun h => ?_, fun h b m' hrun => ?_⟩⟩
  · by_contra hnew
    obtain ⟨b, m', hrun, href, hnot⟩ := can_renamefile hsrc hdst hshort hnew
    exact hnot (h b m' hrun href)
  · exact wp_of_runs (wp_renamefile hsrc hdst h) hrun
  · by_contra hundoes
    obtain ⟨b, m', hrun, href, hnot⟩ := can_copyfile hsrc hdst hshort hundoes
    exact hnot (h b m' hrun href)
  · exact wp_of_runs (wp_copyfile hsrc hdst h) hrun

theorem here_short (e : Errno) : (here.strerror e).length < 500 := by
  cases e with
  | other _ => exact (by decide : (ascii "Unknown error").length < 500)
  | _ => decide

/-- There is no file `b` that could be renamed or copied. -/
theorem refused_leaves_nothing_missing :
    (∀ b m', Runs (Steady here) ((Operation.renamefile (ascii "b") (ascii "a")).run here [])
        (booted oneFile) b m' → Refuses (booted oneFile) m' → Same here oneFile m'.tree) ∧
    (∀ b m', Runs (Steady here) ((Operation.copyfile (ascii "b") (ascii "a")).run here [])
        (booted oneFile) b m' → Refuses (booted oneFile) m' → Same here oneFile m'.tree) := by
  have hsrc : pathBuild here.dataDir (ascii "b") pathMax = some (ascii "./b") := rfl
  have hiff := refused_leaves_nothing_iff [] (m := booted oneFile) hsrc build_a here_short
  refine ⟨hiff.1.mpr ?_, hiff.2.mpr (.inl ?_)⟩
  · intro rel rest hpath
    have hslash : 47 ∈ ascii "a" := by
      rw [hpath]
      simp
    exact absurd hslash (by decide)
  · rintro (hdir | ⟨-, hfound⟩)
    · cases hdir
    · exact hfound rfl

/-- `RENAMEFILE a d/b` makes the directory `d` and fails, and `COPYFILE . a` empties `a` and then
cannot read a directory. -/
theorem refused_leaves_directory :
    (∃ b m', Runs (Steady here) ((Operation.renamefile (ascii "a") (ascii "d/b")).run here [])
      (booted Tree.empty) b m' ∧ Refuses (booted Tree.empty) m' ∧ ¬ Same here Tree.empty m'.tree) ∧
    (∃ b m', Runs (Steady here) ((Operation.copyfile (ascii ".") (ascii "a")).run here [])
      (booted (twoFiles [120])) b m' ∧ Refuses (booted (twoFiles [120])) m' ∧
      ¬ Same here (twoFiles [120]) m'.tree) := by
  have hdir : pathBuild here.dataDir (ascii "d/b") pathMax = some (ascii "./d/b") := rfl
  have hroot : pathBuild here.dataDir (ascii ".") pathMax = some (ascii "./.") := rfl
  constructor
  · apply can_renamefile (m := booted Tree.empty) build_a hdir here_short
    intro hnew
    obtain ⟨k, b, -, hfile⟩ := hnew (ascii "d") (ascii "b") rfl rfl
    cases k <;> cases hfile
  · apply can_copyfile (m := booted (twoFiles [120])) hroot build_a here_short
    rintro (hread | ⟨-, hno | hlog | ⟨hempty, -⟩⟩)
    · exact hread (.inl rfl)
    · have hfile : (twoFiles [120]).node (resolve (ascii "a")) = some (.file [120]) := rfl
      exact hno ⟨bare_a, Tree.room_of_file hfile⟩
    · exact a_not_log hlog
    · cases hempty

end ServerLeftovers
