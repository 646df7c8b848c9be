import Xv6Filesrv.ServerCalls
import Xv6Filesrv.ServerReplyFormat

/-!
# Talking to a client

A client's thread and the stream that it reads its requests from.  The file system may answer
anything; only `send` does not fail, and what is read from a file comes in finitely many pieces.
For every request it is recorded what was read from files for it and what was sent.  Here are the
functions that send nothing, and those that send a reply.
-/

namespace ServerReplies

open Arrivals ServerResp ServerPaths ServerOps ServerCalls ServerReplyFormat
  ProgramRuns

structure Exchange where
  request : RespArray
  /-- what was read from files, or from the log, for the request -/
  got : Bytes
  /-- what was sent after the request was read -/
  out : Bytes

structure Talk where
  /-- what the client still sends -/
  source : Source UInt8
  /-- how often calls can be interrupted, and pieces of files be read -/
  patience : Nat
  /-- the requests that were read, the last one first -/
  served : List Exchange

def Talk.hear (l : Talk) (data : Bytes) : Talk :=
  { l with served := l.served.modifyHead fun x => { x with got := x.got ++ data } }

def Talk.say (l : Talk) (data : Bytes) : Talk :=
  { l with served := l.served.modifyHead fun x => { x with out := x.out ++ data } }

def Talk.take (l : Talk) : Option RespArray → List Exchange
  | none => l.served
  | some req => ⟨req, [], []⟩ :: l.served

/-- What an answer to a call makes of the talk. -/
def Talks (l : Talk) : (c : Call) → Answer c → Talk → Prop
  | .recvRequest, r, l' => r = (respReadArray l.source).1 ∧
      l' = ⟨(respReadArray l.source).2, l.patience, l.take r⟩
  | .send data, r, l' => ∃ w, r = some w ∧ 0 < w ∧ w ≤ data.length ∧ l' = l.say (data.take w)
  | .read _ n, some data, l' => data.length ≤ n ∧
      if data = [] then l' = l
      else 0 < l.patience ∧ l' = { l.hear data with patience := l.patience - 1 }
  | .fread n, data, l' => data.length ≤ n ∧ l' = l.hear data
  | .errno, .eintr, l' => 0 < l.patience ∧ l' = { l with patience := l.patience - 1 }
  | .write _ _, some 0, l' => 0 < l.patience ∧ l' = { l with patience := l.patience - 1 }
  | _, _, l' => l' = l

@[simp] theorem Talk.hear_nil (l : Talk) : l.hear [] = l := by
  obtain ⟨source, patience, served⟩ := l
  cases served <;> simp [Talk.hear]

@[simp] theorem Talk.say_nil (l : Talk) : l.say [] = l := by
  obtain ⟨source, patience, served⟩ := l
  cases served <;> simp [Talk.say]

theorem Talk.hear_hear (l : Talk) (a b : Bytes) : (l.hear a).hear b = l.hear (a ++ b) := by
  obtain ⟨source, patience, served⟩ := l
  cases served <;> simp [Talk.hear]

theorem Talk.say_say (l : Talk) (a b : Bytes) : (l.say a).say b = l.say (a ++ b) := by
  obtain ⟨source, patience, served⟩ := l
  cases served <;> simp [Talk.say]

variable {α β : Type} {l l' l'' : Talk} {Q : β → Talk → Prop}

/-! ## Programs that send nothing -/

/-- The talk is as it was, but that `data` was read, and patience may be lost. -/
structure Heard (data : Bytes) (l l' : Talk) : Prop where
  served : l'.served = (l.hear data).served
  source : l'.source = l.source
  patience : l'.patience ≤ l.patience

theorem Heard.refl (l : Talk) : Heard [] l l := ⟨by simp, rfl, Nat.le_refl _⟩

theorem Heard.trans {a b : Bytes} (h : Heard a l l') (h' : Heard b l' l'') :
    Heard (a ++ b) l l'' := by
  refine ⟨?_, h'.source.trans h.source, Nat.le_trans h'.patience h.patience⟩
  rw [h'.served, ← Talk.hear_hear]
  simp only [Talk.hear, h.served]

/-- The program ends, and it has read nothing and sent nothing. -/
def Still (p : Server α) : Prop := ∀ l, Ends Talks (fun _ => Heard [] l) p l

/-- The program ends, and it has sent nothing. -/
def Mute (p : Server α) : Prop := ∀ l, Ends Talks (fun _ l' => ∃ data, Heard data l l') p l

theorem Still.ends {p : Server α} {f : α → Server β} (hp : Still p)
    (hf : ∀ a l', Heard [] l l' → Ends Talks Q (f a) l') : Ends Talks Q (p >>= f) l :=
  Ends.bind ((hp l).mono hf)

theorem Mute.ends {p : Server α} {f : α → Server β} (hp : Mute p)
    (hf : ∀ a l' data, Heard data l l' → Ends Talks Q (f a) l') : Ends Talks Q (p >>= f) l :=
  Ends.bind ((hp l).mono fun a l' ⟨data, h⟩ => hf a l' data h)

theorem Still.mute {p : Server α} (h : Still p) : Mute p :=
  fun l => (h l).mono fun _ _ hheard => ⟨[], hheard⟩

theorem still_sequential : Sequential Still where
  pure _ l := Ends.pure (Heard.refl l)
  bind hp hf _ := hp.ends fun a l' h => (hf a l').mono fun _ _ h' => h.trans h'

theorem mute_sequential : Sequential Mute where
  pure _ l := Ends.pure ⟨[], Heard.refl l⟩
  bind hp hf _ := hp.ends fun a l' data h =>
    (hf a l').mono fun _ _ ⟨data', h'⟩ => ⟨data ++ data', h.trans h'⟩

/-- Calls that leave the talk alone. -/
def Quiet : Call → Prop
  | .recvRequest | .send _ | .read _ _ | .fread _ | .errno | .write _ _ => False
  | _ => True

theorem ends_quiet (c : Call) (hc : Quiet c) {Q : Answer c → Talk → Prop} (h : ∀ r, Q r l) :
    Ends Talks Q (ask c) l := by
  have hsame : ∀ r l', Talks l c r l' ↔ l' = l := by
    intro r l'
    cases c <;> first | rfl | exact hc.elim
  have hinhabited : Nonempty (Answer c) := by
    cases c <;> first | exact ⟨default⟩ | exact hc.elim
  obtain ⟨r⟩ := hinhabited
  apply Ends.perform ⟨r, l, (hsame r l).mpr rfl⟩
  intro r l' hr
  rw [(hsame r l').mp hr]
  exact h r

theorem Quiet.still {c : Call} (hc : Quiet c) : Still (ask c) :=
  fun l => ends_quiet c hc fun _ => Heard.refl l

theorem still_errno : Still (ask .errno) := by
  intro l
  apply Ends.perform ⟨.enoent, l, rfl⟩
  intro e l' h
  cases e with
  | eintr =>
    obtain ⟨-, rfl⟩ := h
    exact ⟨by simp, rfl, Nat.sub_le _ _⟩
  | _ =>
    cases h
    exact Heard.refl l

theorem still_locking : Locking Still where
  toSequential := still_sequential
  locks c hc := Quiet.still (by cases c <;> first | exact hc | trivial)

/-! ## Loops -/

/-- After an error a loop goes round again only if patience is lost. -/
theorem ends_retry {again giveUp : α} {Q : α → Talk → Prop}
    (hagain : ∀ l', Heard [] l l' → l'.patience < l.patience → Q again l')
    (hgive : Q giveUp l) :
    Ends Talks Q (do if (← ask .errno) = .eintr then pure again else pure giveUp) l := by
  apply Ends.bind
  apply Ends.perform ⟨.enoent, l, rfl⟩
  intro e l' h
  by_cases he : e = .eintr
  · subst he
    obtain ⟨hpos, rfl⟩ := h
    rw [if_pos rfl]
    exact Ends.pure (hagain _ ⟨by simp, rfl, Nat.sub_le _ _⟩ (by simp only; omega))
  · have hl : l' = l := by
      cases e <;> first | exact h | exact absurd rfl he
    rw [if_neg he, hl]
    exact Ends.pure hgive

/-- A piece of a file that is read costs patience, unless it is the end. -/
theorem talks_read {f n : Nat} {r : Option Bytes} (h : Talks l (.read f n) r l') :
    (r = none ∧ l' = l) ∨ (r = some [] ∧ l' = l) ∨
      ∃ data, r = some data ∧ data ≠ [] ∧ data.length ≤ n ∧ Heard data l l' ∧
        l'.patience < l.patience := by
  cases r with
  | none => exact .inl ⟨rfl, h⟩
  | some data =>
    obtain ⟨hlen, hdata⟩ := h
    split at hdata
    · next hd => exact .inr (.inl ⟨by rw [hd], hdata⟩)
    · next hd =>
      obtain ⟨hpos, rfl⟩ := hdata
      exact .inr (.inr ⟨data, rfl, hd, hlen, ⟨rfl, rfl, Nat.sub_le _ _⟩, by simp only; omega⟩)

/-- What `read_all_file` reads is what was read from the file. -/
theorem ends_readLoop (f sz : Nat) (l : Talk) :
    Ends Talks (fun out l' => ∃ data, Heard data l l' ∧
      ∀ buf, out = some buf → buf = data ∧ buf.length ≤ sz) (readLoop f sz) l := by
  apply Ends.iterate (fun buf l' => Heard buf l l' ∧ buf.length ≤ sz) (fun _ l' => l'.patience)
    ⟨Heard.refl l, Nat.zero_le _⟩
  rintro buf l₁ ⟨hheard, hlen⟩
  have hdone : ∀ out : Option Bytes, (∀ b, out = some b → b = buf) →
      ∃ data, Heard data l l₁ ∧ ∀ b, out = some b → b = data ∧ b.length ≤ sz := by
    intro out hout
    refine ⟨buf, hheard, fun b hb => ⟨hout b hb, ?_⟩⟩
    rw [hout b hb]
    exact hlen
  split
  · exact Ends.pure (hdone _ fun b hb => (Option.some.inj hb).symm)
  · apply Ends.bind
    apply Ends.perform ⟨none, l₁, rfl⟩
    intro r l₂ h
    obtain ⟨rfl, rfl⟩ | ⟨rfl, rfl⟩ | ⟨data, rfl, hne, hle, hmore, hlt⟩ := talks_read h
    · apply ends_retry
      · intro l₃ h₃ hlt
        have hheard' := hheard.trans h₃
        rw [List.append_nil] at hheard'
        exact ⟨⟨hheard', hlen⟩, hlt⟩
      · exact hdone none nofun
    · exact Ends.pure (hdone _ fun b hb => (Option.some.inj hb).symm)
    · simp only [if_neg hne]
      refine Ends.pure ⟨⟨hheard.trans hmore, ?_⟩, hlt⟩
      rw [List.length_append]
      omega

theorem still_writeLoop (f : Nat) (data : Bytes) : Still (writeLoop f data) := by
  intro l
  apply Ends.iterate (fun _ l' => Heard [] l l') (fun off l' => data.length - off + l'.patience)
    (Heard.refl l)
  intro off l₁ hheard
  split
  · exact Ends.pure hheard
  · apply Ends.bind
    apply Ends.perform ⟨none, l₁, rfl⟩
    intro r l₂ h
    cases r with
    | none =>
      cases h
      apply ends_retry
      · intro l₃ h₃ hlt
        refine ⟨hheard.trans h₃, ?_⟩
        omega
      · exact hheard
    | some w =>
      cases w with
      | zero =>
        obtain ⟨hpos, rfl⟩ := h
        refine Ends.pure ⟨hheard.trans ⟨by simp, rfl, Nat.sub_le _ _⟩, ?_⟩
        simp only
        omega
      | succ w =>
        cases h
        refine Ends.pure ⟨hheard, ?_⟩
        omega

theorem mute_copyLoop (srcFd dstFd : Nat) : Mute (copyLoop srcFd dstFd) := by
  intro l
  apply Ends.iterate (fun _ l' => ∃ data, Heard data l l') (fun _ l' => l'.patience)
    ⟨[], Heard.refl l⟩
  rintro _ l₁ ⟨data, hheard⟩
  apply Ends.bind
  apply Ends.perform ⟨none, l₁, rfl⟩
  intro r l₂ h
  obtain ⟨rfl, rfl⟩ | ⟨rfl, rfl⟩ | ⟨piece, rfl, hne, -, hmore, hlt⟩ := talks_read h
  · apply ends_retry
    · intro l₃ h₃ hlt
      exact ⟨⟨_, hheard.trans h₃⟩, hlt⟩
    · exact ⟨data, hheard⟩
  · exact Ends.pure ⟨data, hheard⟩
  · simp only [if_neg hne]
    apply (still_writeLoop dstFd piece).ends
    intro ok l₃ h₃
    have hheard' := (hheard.trans hmore).trans h₃
    have hpatience := h₃.patience
    cases ok with
    | false => exact Ends.pure ⟨_, hheard'⟩
    | true => exact Ends.pure ⟨⟨_, hheard'⟩, by omega⟩

theorem mute_read (f n : Nat) : Mute (ask (.read f n)) := by
  intro l
  apply Ends.perform ⟨none, l, rfl⟩
  intro r l' h
  obtain ⟨-, rfl⟩ | ⟨-, rfl⟩ | ⟨data, -, -, -, hmore, -⟩ := talks_read h
  · exact ⟨[], Heard.refl _⟩
  · exact ⟨[], Heard.refl _⟩
  · exact ⟨data, hmore⟩

theorem still_write (f : Nat) (data : Bytes) : Still (ask (.write f data)) := by
  intro l
  apply Ends.perform ⟨none, l, rfl⟩
  intro r l' h
  match r, h with
  | none, h =>
    cases h
    exact Heard.refl _
  | some 0, ⟨_, h⟩ =>
    cases h
    exact ⟨by simp, rfl, Nat.sub_le _ _⟩
  | some (w + 1), h =>
    cases h
    exact Heard.refl _

/-- What `fread` gives is what was read from the log. -/
theorem ends_fread {n : Nat} {f : Bytes → Server β}
    (hf : ∀ data l', data.length ≤ n → Heard data l l' → Ends Talks Q (f data) l') :
    Ends Talks Q (ask (.fread n) >>= f) l := by
  apply Ends.bind
  apply Ends.perform ⟨[], l, Nat.zero_le n, by simp⟩
  rintro data l' ⟨hlen, rfl⟩
  exact hf data _ hlen ⟨rfl, rfl, Nat.le_refl _⟩

theorem mute_fread (n : Nat) : Mute (ask (.fread n)) := by
  intro l
  apply Ends.perform ⟨[], l, Nat.zero_le n, by simp⟩
  rintro data l' ⟨-, rfl⟩
  exact ⟨data, rfl, rfl, Nat.le_refl _⟩

theorem mute_readLoop (f sz : Nat) : Mute (readLoop f sz) :=
  fun l => (ends_readLoop f sz l).mono fun _ _ ⟨data, hheard, _⟩ => ⟨data, hheard⟩

theorem Quiet.mute {c : Call} (hc : Quiet c) : Mute (ask c) := hc.still.mute

theorem mute_basic (c : Call) (hc : Basic c) : Mute (ask c) := by
  cases c with
  | errno => exact still_errno.mute
  | read f n => exact mute_read f n
  | write f data => exact (still_write f data).mute
  | fread n => exact mute_fread n
  | _ => first | exact Quiet.mute trivial | exact hc.elim

theorem mute_common : Common Mute where
  toLocking := ⟨mute_sequential, fun c hc => (still_locking.locks c hc).mute⟩
  basic := mute_basic
  readLoop := mute_readLoop
  writeLoop f data := (still_writeLoop f data).mute
  copyLoop := mute_copyLoop
  close _ := Quiet.mute trivial

theorem still_log (client : Bytes) (command : String) (target : Bytes) (status : String)
    (detail : Bytes) : Still (loggerLog client command target status detail) :=
  still_locking.log (fun _ => Quiet.still trivial) _ _ _ _ _

/-! ## Replies -/

theorem ends_sendAll (buf : Bytes) (l : Talk) :
    Ends Talks (fun ok l' => ok = true ∧ l' = l.say buf) (sendAll buf) l := by
  apply Ends.iterate (fun sent l' => sent ≤ buf.length ∧ l' = l.say (buf.take sent))
    (fun sent _ => buf.length - sent) ⟨Nat.zero_le _, by simp⟩
  rintro sent _ ⟨hsent, rfl⟩
  split
  · next hall =>
    refine Ends.pure ⟨rfl, ?_⟩
    rw [List.take_of_length_le hall]
  · next hmore =>
    have hrest : (buf.drop sent).length = buf.length - sent := List.length_drop
    apply Ends.bind
    apply Ends.perform ⟨some 1, _, 1, rfl, Nat.one_pos, by omega, rfl⟩
    rintro _ _ ⟨w, rfl, hpos, hw, rfl⟩
    refine Ends.pure ⟨⟨by omega, ?_⟩, by omega⟩
    rw [Talk.say_say, List.take_add]

/-- From a request for which `g` was read and nothing was sent the program comes to a reply in
`R`. -/
def Replies (g : Bytes) (R : Bytes → Reply → Prop) (p : Server α) : Prop :=
  ∀ l req rest, l.served = ⟨req, g, []⟩ :: rest →
    Ends Talks (fun _ l' => l'.source = l.source ∧ ∃ got reply, R got reply ∧ reply.WellFormed ∧
      l'.served = ⟨req, got, reply.encode⟩ :: rest) p l

variable {g : Bytes} {R : Bytes → Reply → Prop}

theorem Still.then {p : Server α} {f : α → Server β} (hp : Still p)
    (hf : ∀ a, Replies g R (f a)) : Replies g R (p >>= f) := by
  intro l req rest hl
  apply hp.ends
  intro a l' h
  have hserved : l'.served = ⟨req, g, []⟩ :: rest := by
    rw [h.served, Talk.hear_nil, hl]
  refine (hf a l' req rest hserved).mono ?_
  rintro _ l'' ⟨hsource, hreply⟩
  exact ⟨hsource.trans h.source, hreply⟩

theorem Heard.head {data : Bytes} {req : RespArray} {rest : List Exchange} (h : Heard data l l')
    (hl : l.served = ⟨req, g, []⟩ :: rest) : l'.served = ⟨req, g ++ data, []⟩ :: rest := by
  rw [h.served, Talk.hear, hl]
  rfl

/-- Something is read first, and the reply depends on it. -/
theorem Replies.of_read {p : Server α} {f : α → Server β} {P : α → Bytes → Prop}
    (hp : ∀ l, Ends Talks (fun a l' => ∃ data, Heard data l l' ∧ P a data) p l)
    (hf : ∀ a data, P a data → Replies (g ++ data) R (f a)) : Replies g R (p >>= f) := by
  intro l req rest hl
  apply Ends.bind
  refine (hp l).mono ?_
  rintro a l' ⟨data, h, ha⟩
  refine (hf a data ha l' req rest (h.head hl)).mono ?_
  rintro _ l'' ⟨hsource, hreply⟩
  exact ⟨hsource.trans h.source, hreply⟩

theorem Mute.then {p : Server α} {f : α → Server β} (hp : Mute p)
    (hf : ∀ g a, Replies g R (f a)) : Replies g R (p >>= f) := by
  apply Replies.of_read (P := fun _ _ => True)
  · intro l
    refine (hp l).mono ?_
    rintro _ l' ⟨data, h⟩
    exact ⟨data, h, trivial⟩
  · intro a data _
    exact hf _ a

/-- Nothing is sent behind the reply. -/
theorem Replies.then_still {p : Server α} {f : α → Server β} (hp : Replies g R p)
    (hf : ∀ a, Still (f a)) : Replies g R (p >>= f) := by
  intro l req rest hl
  apply Ends.bind
  refine (hp l req rest hl).mono ?_
  rintro a l' ⟨hsource, got, reply, hr, hwell, hserved⟩
  refine (hf a l').mono fun _ l'' h => ?_
  refine ⟨h.source.trans hsource, got, reply, hr, hwell, ?_⟩
  rw [h.served, Talk.hear_nil, hserved]

theorem replies_sendAll {r : Reply} (hr : R g r) (hwell : r.WellFormed) :
    Replies g R (sendAll r.encode) := by
  intro l req rest hl
  refine (ends_sendAll _ l).mono ?_
  rintro ok _ ⟨-, rfl⟩
  refine ⟨rfl, g, r, hr, hwell, ?_⟩
  simp [Talk.say, hl]

theorem replies_line {r : Reply} {n : Nat} (hr : R g r) (hwell : r.WellFormed)
    (hn : r.encode.length < n) : Replies g R (replyLine n r.encode) := by
  have hfits : snprintf n r.encode = some r.encode := by
    rw [snprintf, if_neg (by omega)]
  unfold replyLine
  rw [hfits]
  exact replies_sendAll hr hwell

/-- A text that fits into the line of an error. -/
def Presentable (text : Bytes) : Prop := OneLine text ∧ text.length ≤ 504

instance (text : Bytes) : Decidable (Presentable text) :=
  inferInstanceAs (Decidable ((_ ∧ _) ∧ _))

theorem replies_simple {msg : Bytes} (hr : R g (.simple msg)) (hline : OneLine msg)
    (hlen : msg.length ≤ 252) : Replies g R (respReplySimple msg) := by
  have hshort : (Reply.simple msg).encode.length < 256 := by
    simp only [Reply.encode, crlf, List.length_cons, List.length_append, List.length_nil]
    omega
  exact replies_line hr hline hshort

theorem replies_error {text : Bytes} (hr : R g (.error (ascii "ERR " ++ text)))
    (htext : Presentable text) : Replies g R (respReplyError text) := by
  have hlen : (ascii "ERR ").length = 4 := rfl
  have hshort : (Reply.error (ascii "ERR " ++ text)).encode.length < 512 := by
    simp only [Reply.encode, crlf, List.length_cons, List.length_append, List.length_nil, hlen]
    have := htext.2
    omega
  have hline : OneLine (ascii "ERR " ++ text) := by
    constructor
    · rw [List.mem_append, not_or]
      exact ⟨by decide, htext.1.1⟩
    · rw [List.mem_append, not_or]
      exact ⟨by decide, htext.1.2⟩
  exact replies_line hr hline hshort

theorem replies_integer {v : Nat} (hr : R g (.integer v)) (hv : v < 10) :
    Replies g R (respReplyInteger v) := by
  have hshort : (Reply.integer v).encode.length < 128 := by
    have hnat : (v : Int).natAbs = v := rfl
    have hsigned : signed v = [Decimal.digit v] := by
      rw [signed, if_neg (by omega), hnat, Decimal.numeral_of_lt hv]
    simp [Reply.encode, hsigned, crlf]
  exact replies_line hr trivial hshort

theorem replies_nullBulk (hr : R g .nullBulk) : Replies g R respReplyNullBulk :=
  replies_sendAll hr trivial

/-- The bytes of a bulk reply are sent as they are. -/
theorem replies_bulk {data : Bytes} (hr : R g (.bulk data)) (hlen : data.length < 10 ^ 20) :
    Replies g R (respReplyBulk data) := by
  intro l req rest hl
  have hhead : snprintf 64 (ascii "$" ++ Decimal.numeral data.length ++ crlf) =
      some (ascii "$" ++ Decimal.numeral data.length ++ crlf) := by
    have hdigits := Decimal.numeral_length_le 19 data.length hlen
    have hone : (ascii "$").length = 1 := rfl
    rw [snprintf, if_neg]
    simp only [crlf, List.length_append, List.length_cons, List.length_nil, hone]
    omega
  have hend : ∀ l', l' = l.say (ascii "$" ++ Decimal.numeral data.length ++ crlf ++ (data ++ crlf)) →
      l'.source = l.source ∧ ∃ got reply, R got reply ∧ reply.WellFormed ∧
        l'.served = ⟨req, got, reply.encode⟩ :: rest := by
    rintro _ rfl
    refine ⟨rfl, g, .bulk data, hr, trivial, ?_⟩
    simp [Talk.say, hl, Reply.encode, ascii]
  unfold respReplyBulk replyLine
  rw [hhead]
  apply Ends.bind
  refine (ends_sendAll _ l).mono ?_
  rintro _ _ ⟨rfl, rfl⟩
  split
  · next h => cases h
  · split
    · next hnil =>
      refine (ends_sendAll _ _).mono ?_
      rintro _ _ ⟨-, rfl⟩
      apply hend
      rw [Talk.say_say, hnil, List.nil_append]
    · apply Ends.bind
      refine (ends_sendAll _ _).mono ?_
      rintro _ _ ⟨rfl, rfl⟩
      split
      · next h => cases h
      · refine (ends_sendAll _ _).mono ?_
        rintro _ _ ⟨-, rfl⟩
        apply hend
        rw [Talk.say_say, Talk.say_say, List.append_assoc]

end ServerReplies
