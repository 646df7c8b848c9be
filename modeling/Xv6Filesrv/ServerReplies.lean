import Mathlib.Data.List.Forall2
import Xv6Filesrv.ServerAnswers

/-!
# One reply to each request

The thread of a client takes one request after the other off the stream, and sends one reply to
each of them.
-/

namespace ServerReplies

open Arrivals ServerResp ServerPaths ServerOps ServerReplyFormat ProgramRuns

variable {env : Env} {client : Bytes} {l l' : Talk}

theorem recodeTo_decent {op : Bytes → Bytes → Operation} (hop : ∀ src dst, Decent (op src dst))
    (src : Bytes) (dst : Option Bytes) : Decent (recodeTo op src dst) := by
  cases dst with
  | none => exact show Presentable _ by decide +kernel
  | some dst => exact hop src dst

theorem wrongArity_decent {command : String}
    (h : Presentable (ascii "wrong number of arguments for " ++ ascii command)) :
    Decent (wrongArity command) := h

theorem ite_decent {c : Prop} [Decidable c] {op op' : Operation} (h : Decent op)
    (h' : Decent op') : Decent (if c then op else op') := by
  split
  · exact h
  · exact h'

theorem dispatch_decent {cmd : Bytes} {args : List RespBuf}
    (hargs : ∀ item ∈ args, item.len ≤ 2147483647) : Decent (dispatchCommand cmd args) := by
  unfold dispatchCommand
  refine ite_decent ?ping (ite_decent ?getfile (ite_decent ?setfile (ite_decent ?delfile
    (ite_decent ?renamefile (ite_decent ?copyfile (ite_decent ?statfile (ite_decent ?logs
      (ite_decent ?compress (ite_decent ?decompress ?unknown)))))))))
  case ping =>
    split
    · exact show OneLine _ ∧ _ by decide
    · next msg _ =>
      have hlen := hargs msg List.mem_cons_self
      have htake : (msg.ptr.take msg.len).length ≤ msg.len := List.length_take_le _ _
      exact show (msg.ptr.take msg.len).length < 10 ^ 20 by omega
  case logs =>
    split
    · trivial
    · split
      · exact show Presentable _ by decide +kernel
      · exact ite_decent (show Presentable _ by decide +kernel) trivial
    · exact wrongArity_decent (by decide +kernel)
  case compress =>
    split
    · exact recodeTo_decent (fun src dst => show Decent (.compress src dst) from trivial) _ _
    · trivial
    · exact wrongArity_decent (by decide +kernel)
  case decompress =>
    split
    · exact recodeTo_decent (fun src dst => show Decent (.decompress src dst) from trivial) _ _
    · trivial
    · exact wrongArity_decent (by decide +kernel)
  case unknown => exact show Presentable _ by decide +kernel
  all_goals
    split
    · trivial
    · exact wrongArity_decent (by decide +kernel)

/-- The requests that are read off a stream one after the other. -/
inductive Requests (source : Source UInt8) : List RespArray → Source UInt8 → Prop
  | none : Requests source [] source
  | more {reqs : List RespArray} {req : RespArray} {s s' : Source UInt8}
      (h : Requests source reqs s) (hread : respReadArray s = (some req, s')) :
      Requests source (reqs ++ [req]) s'

/-- The reply that an exchange should come to. -/
def Exchange.Suits (x : Exchange) (r : Reply) : Prop :=
  match x.request.items with
  | [] => r = .error (ascii "ERR empty command")
  | cmd :: args => ServerReplies.Suits (dispatchCommand (arg cmd) args) x.got r

/-- The exchange has come to one reply. -/
def Exchange.Answered (x : Exchange) : Prop :=
  ∃ r, x.out = r.encode ∧ r.WellFormed ∧ x.Suits r

/-- All requests so far were read off the stream, and each has its reply. -/
structure Kept (source : Source UInt8) (l : Talk) : Prop where
  requests : Requests source (l.served.reverse.map Exchange.request) l.source
  answered : ∀ x ∈ l.served, x.Answered

/-- A request is served. -/
theorem ends_serve (henv : Polite env) {req : RespArray} {cmd : RespBuf} {args : List RespBuf}
    (hitems : req.items = cmd :: args) (hlen : ∀ item ∈ req.items, item.len ≤ 2147483647)
    {rest : List Exchange} (hl : l.served = ⟨req, [], []⟩ :: rest) :
    Ends Talks (fun _ l' => l'.source = l.source ∧ ∃ x, x.request = req ∧ x.Answered ∧
      l'.served = x :: rest) ((dispatchCommand (arg cmd) args).run env client) l := by
  have hargs : ∀ item ∈ args, item.len ≤ 2147483647 := by
    intro item hitem
    exact hlen item (hitems ▸ List.mem_cons_of_mem cmd hitem)
  refine (replies_operation henv (dispatch_decent hargs) l req rest hl).mono ?_
  rintro _ l' ⟨hsource, got, reply, hsuits, hwell, hserved⟩
  refine ⟨hsource, ⟨req, got, reply.encode⟩, rfl, ⟨reply, rfl, hwell, ?_⟩, hserved⟩
  unfold Exchange.Suits
  simp only [hitems]
  exact hsuits

theorem ends_empty {req : RespArray} (hitems : req.items = []) {rest : List Exchange}
    (hl : l.served = ⟨req, [], []⟩ :: rest) :
    Ends Talks (fun _ l' => l'.source = l.source ∧ ∃ x, x.request = req ∧ x.Answered ∧
      l'.served = x :: rest) (respReplyError (ascii "empty command")) l := by
  have hreply : Replies [] (fun _ r => r = .error (ascii "ERR empty command"))
      (respReplyError (ascii "empty command")) := replies_error rfl (by decide)
  refine (hreply l req rest hl).mono ?_
  rintro _ l' ⟨hsource, got, reply, hsuits, hwell, hserved⟩
  refine ⟨hsource, ⟨req, got, reply.encode⟩, rfl, ⟨reply, rfl, hwell, ?_⟩, hserved⟩
  unfold Exchange.Suits
  simp only [hitems]
  exact hsuits

/-- What holds when the client is gone. -/
def Done (source : Source UInt8) (l : Talk) : Prop :=
  (∃ s, Requests source (l.served.reverse.map Exchange.request) s) ∧ ∀ x ∈ l.served, x.Answered

theorem Kept.done {source : Source UInt8} (h : Kept source l) : Done source l :=
  ⟨⟨l.source, h.requests⟩, h.answered⟩

/-- A request that was read and its reply. -/
theorem Kept.serve {source : Source UInt8} (h : Kept source l) {req : RespArray} {x : Exchange}
    (hread : respReadArray l.source = (some req, l'.source)) (hx : x.request = req)
    (hanswered : x.Answered) (hserved : l'.served = x :: l.served) : Kept source l' := by
  constructor
  · rw [hserved, List.reverse_cons, List.map_append]
    have hmore := h.requests.more hread
    rw [← hx] at hmore
    exact hmore
  · rw [hserved]
    exact List.forall_mem_cons.mpr ⟨hanswered, h.answered⟩

theorem ends_client (henv : Polite env) (client : Bytes) (source : Source UInt8) (patience : Nat) :
    Ends Talks (fun _ => Done source) (clientThread env client) ⟨source, patience, []⟩ := by
  apply Ends.bind
  -- every round that goes on has read a request off the stream
  apply Ends.iterate (fun _ => Kept source) (fun _ l => l.source.data.length)
    ⟨.none, List.forall_mem_nil _⟩
  intro _ l hkept
  have hclose : ∀ l', Done source l' → Ends Talks (fun _ => Done source) (ask .closeClient) l' := by
    intro l' hdone
    exact ends_quiet .closeClient trivial fun _ => hdone
  apply Ends.bind
  refine ends_quiet .stopped trivial fun stop => ?_
  split
  · exact Ends.pure (hclose l hkept.done)
  · apply Ends.bind
    apply Ends.perform ⟨_, _, rfl, rfl⟩
    rintro r l₁ ⟨hr, hl₁⟩
    have hread : respReadArray l.source = (r, l₁.source) := by
      rw [hr, hl₁]
    cases r with
    | none =>
      refine Ends.pure (hclose l₁ ?_)
      rw [hl₁]
      exact ⟨⟨l.source, hkept.requests⟩, hkept.answered⟩
    | some req =>
      obtain ⟨k, hlen, hpos, hitems⟩ := respReadArray_takes _ _ _ hread
      have hserved₁ : l₁.served = ⟨req, [], []⟩ :: l.served := by
        rw [hl₁]
        rfl
      have hnext : ∀ l', l'.source = l₁.source ∧ (∃ x, x.request = req ∧ x.Answered ∧
          l'.served = x :: l.served) → Kept source l' ∧
            l'.source.data.length < l.source.data.length := by
        rintro l' ⟨hsource, x, hx, hanswered, hserved⟩
        rw [← hsource] at hread
        refine ⟨hkept.serve hread hx hanswered hserved, ?_⟩
        rw [hsource]
        omega
      simp only
      split
      · next hempty =>
        apply Ends.bind
        refine ends_quiet .freeRequest trivial fun _ => ?_
        apply Ends.bind
        refine (ends_empty hempty hserved₁).mono fun _ l' h => Ends.pure (hnext l' h)
      · next cmd args hargs =>
        apply Ends.bind
        refine (ends_serve henv hargs hitems hserved₁).mono fun _ l' h => ?_
        apply Ends.bind
        exact ends_quiet .freeRequest trivial fun _ => Ends.pure (hnext l' h)

/-- All that was sent to the client. -/
def Talk.sent (l : Talk) : Bytes := l.served.reverse.flatMap Exchange.out

theorem exists_replies {xs : List Exchange} (h : ∀ x ∈ xs, x.Answered) :
    ∃ rs : List Reply, (∀ r ∈ rs, r.WellFormed) ∧ xs.flatMap Exchange.out = rs.flatMap Reply.encode ∧
      List.Forall₂ (fun x r => x.out = r.encode ∧ x.Suits r) xs rs := by
  induction xs with
  | nil => exact ⟨[], nofun, rfl, .nil⟩
  | cons x xs ih =>
    obtain ⟨r, hout, hwell, hsuits⟩ := h x List.mem_cons_self
    obtain ⟨rs, hwells, houts, hall⟩ := ih fun y hy => h y (List.mem_cons_of_mem x hy)
    refine ⟨r :: rs, List.forall_mem_cons.mpr ⟨hwell, hwells⟩, ?_, .cons ⟨hout, hsuits⟩ hall⟩
    rw [List.flatMap_cons, List.flatMap_cons, hout, houts]

/-- Whatever a client sends and however the file system answers, the thread of the client comes to
an end, and what it has sent is one well-formed reply to each request that it read, in their order
and with nothing left over. -/
theorem one_reply_per_request (henv : Polite env) (client : Bytes) (source : Source UInt8)
    (patience : Nat) :
    Ends Talks (fun _ l => (∃ s, Requests source (l.served.reverse.map Exchange.request) s) ∧
      ∃ replies, decodeAll l.sent.length l.sent = some replies ∧
        replies.length = l.served.length ∧
        List.Forall₂ (fun x r => x.out = r.encode ∧ x.Suits r) l.served.reverse replies)
      (clientThread env client) ⟨source, patience, []⟩ := by
  refine (ends_client henv client source patience).mono ?_
  rintro _ l ⟨hrequests, hanswered⟩
  have hall : ∀ x ∈ l.served.reverse, x.Answered := fun x hx =>
    hanswered x (List.mem_reverse.mp hx)
  obtain ⟨replies, hwell, hsent, hall⟩ := exists_replies hall
  refine ⟨hrequests, replies, ?_, ?_, hall⟩
  · rw [Talk.sent, hsent]
    exact decodeAll_stream hwell
  · rw [← hall.length_eq, List.length_reverse]

/-- The answers to calls by which requests are served that touch no files. -/
def attend (l : Talk) : (c : Call) → Option (Answer c × Talk)
  | .stopped => some (false, l)
  | .recvRequest => some ((respReadArray l.source).1,
      ⟨(respReadArray l.source).2, l.patience, l.take (respReadArray l.source).1⟩)
  | .send data => if data = [] then none else some (some data.length, l.say data)
  | .freeRequest | .closeClient => some ((), l)
  | _ => none

theorem talks_attend (l : Talk) (c : Call) (r : Answer c) (l' : Talk)
    (h : attend l c = some (r, l')) : Talks l c r l' := by
  cases c with
  | send data =>
    obtain ⟨hne, ⟨⟩⟩ := Option.ite_none_left_eq_some.mp h
    refine ⟨data.length, rfl, List.length_pos_iff.mpr hne, Nat.le_refl _, ?_⟩
    rw [List.take_length]
  | recvRequest =>
    cases h
    exact ⟨rfl, rfl⟩
  | stopped | freeRequest | closeClient =>
    cases h
    rfl
  | _ => cases h

/-- Three requests at once: one with a bulk reply, one that is not known, and one with a simple
reply. -/
def pipelined : Bytes :=
  encodeRequest [ascii "PING", ascii "hello"] ++ encodeRequest [ascii "FETCH", ascii "a"] ++
    encodeRequest [ascii "PING"]

/-- All three requests are served in their order, each with a reply of its own. -/
theorem one_reply_per_request_pipelined :
    ∃ l, Runs Talks (clientThread here (ascii "127.0.0.1:5000")) ⟨⟨pipelined, []⟩, 3, []⟩ () l ∧
      l.served.length = 3 ∧
      l.sent = ascii "$5\r\nhello\r\n-ERR unknown command\r\n+PONG\r\n" ∧
      ∃ replies, decodeAll l.sent.length l.sent = some replies ∧ replies.length = 3 := by
  have hrun : (follow attend 100 (clientThread here (ascii "127.0.0.1:5000"))
      ⟨⟨pipelined, []⟩, 3, []⟩).any (fun x => decide (x.2.served.length = 3 ∧
        x.2.sent = ascii "$5\r\nhello\r\n-ERR unknown command\r\n+PONG\r\n")) = true := by
    decide +kernel
  rw [Option.any_eq_true] at hrun
  obtain ⟨⟨⟨⟩, l⟩, hfollow, hl⟩ := hrun
  obtain ⟨hserved, hsent⟩ := of_decide_eq_true hl
  have hruns := Runs.of_follow talks_attend hfollow
  have hpolite : Polite here := by
    intro e
    cases e with
    | other _ => exact (by decide : Presentable (ascii "Unknown error"))
    | _ => decide
  obtain ⟨-, replies, hdecode, hlength, -⟩ :=
    (one_reply_per_request hpolite (ascii "127.0.0.1:5000") ⟨pipelined, []⟩ 3).of_runs hruns
  exact ⟨l, hruns, hserved, hsent, replies, hdecode, hlength.trans hserved⟩

end ServerReplies
