import Xv6Filesrv.KernelMsg

/-!
# Runs of the message queues

What holds of the table in every run, that a queue is a bag of messages for its callers, and in
which order the messages of a type leave it.
-/

namespace KernelMsg

open Relation
open Function (update update_apply update_eq_self update_of_ne update_self)

variable {i : QueueId} {t : Msgq} {j : SlotId} {m : Message} {q : Msgqueue} {s : Track} {c : Call}
  {u : User}

/-- The table after some calls. -/
def run (t : Msgq) : List Call → Msgq
  | [] => t
  | c :: cs => run (act t c).table cs

theorem run_reaches (t : Msgq) (cs : List Call) : ReflTransGen Next t (run t cs) := by
  induction cs generalizing t with
  | nil => exact .refl
  | cons c cs ih => exact .head ⟨c, rfl⟩ (ih (act t c).table)

theorem Reach.run (t : Msgq) (cs : List Call) : Reach (run (msginit t) cs) :=
  ⟨t, run_reaches (msginit t) cs⟩

theorem queueOf_val (hu : (t i).used = true) :
    queueOf t (i.val : Int) = some i := by
  have hrange : 0 ≤ (i.val : Int) ∧ (i.val : Int) < 10 := by omega
  unfold queueOf
  rw [dif_pos hrange]
  exact if_pos hu

theorem queueOf_eq {quid : Int} (h : queueOf t quid = some i) :
    quid = (i.val : Int) := by
  unfold queueOf at h
  split at h
  · next hrange =>
    split at h
    · cases h
      exact (Int.toNat_of_nonneg hrange.1).symm
    · cases h
  · cases h

/-! ## Keys -/

theorem msgget_used (h : MsgInv t) (hu : (t i).used = true) :
    act t (.msgget (t i).key) = ⟨(i.val : Int), [], t⟩ := by
  cases hfind : (List.finRange 10).find? fun k => (t k).used && (t k).key == (t i).key with
  | none =>
    have hno := List.find?_eq_none.mp hfind i (List.mem_finRange i)
    simp [hu] at hno
  | some k =>
    have hfound : (t k).used = true ∧ (t k).key = (t i).key := by
      simpa using List.find?_some hfind
    have hk : k = i := h.keys k i hfound.1 hu hfound.2
    subst hk
    rw [act, sysMsgget, hfind]

/-- After `msgget` has returned a queue, the queue is in use under its key. -/
theorem msgget_opens {key : Int} (hret : (act t (.msgget key)).ret = (i.val : Int)) :
    ((act t (.msgget key)).table i).used = true ∧ ((act t (.msgget key)).table i).key = key := by
  generalize ho : act t (.msgget key) = o at hret ⊢
  have heff := act_effect t (.msgget key)
  rw [ho] at heff
  cases heff with
  | @found key k hu hk =>
    have hki : k = i := Fin.ext (Int.ofNat.inj hret)
    subst hki
    exact ⟨hu, hk⟩
  | @opened key k hnew hu =>
    have hki : k = i := Fin.ext (Int.ofNat.inj hret)
    subst hki
    constructor <;> simp
  | failed =>
    change (-1 : Int) = (i.val : Int) at hret
    omega

theorem Effect.key {o : Outcome} (h : Effect t c o) (hu : (t i).used = true) :
    (o.table i).used = (t i).used ∧ (o.table i).key = (t i).key := by
  cases h with
  | found | counted | failed => exact ⟨rfl, rfl⟩
  | @opened key k hnew hk =>
    have hik : i ≠ k := by
      intro he
      rw [he, hk] at hu
      cases hu
    change (update t k _ i).used = (t i).used ∧ (update t k _ i).key = (t i).key
    rw [update_of_ne hik]
    exact ⟨rfl, rfl⟩
  | spoilt | stored | taken => apply update_header <;> rfl

theorem key_kept {t t' : Msgq} (h : ReflTransGen Next t t') (hu : (t i).used = true) :
    (t' i).used = true ∧ (t' i).key = (t i).key := by
  induction h with
  | refl => exact ⟨hu, rfl⟩
  | tail _ hstep ih =>
    obtain ⟨c, rfl⟩ := hstep
    have hkey := (act_effect _ c).key ih.1
    exact ⟨hkey.1.trans ih.1, hkey.2.trans ih.2⟩

/-! ## Counting the messages that can be received -/

theorem freeSlot_none (h : freeSlot q = none) : q.pending = 10 := by
  have hall : ∀ j, (q.msg j).valid = true := by
    intro j
    have hno := List.find?_eq_none.mp h j (List.mem_finRange j)
    simpa using hno
  simp [Msgqueue.pending, hall]

/-- A length that `copyout` can have copied is not the error value. -/
theorem copyLength_ne {bufflen : Int} (hroom : unsigned (copyLength m bufflen) ≤ u.writable) :
    copyLength m bufflen ≠ -1 := by
  intro hneg
  rw [hneg] at hroom
  have hbig : unsigned (-1) = 2 ^ 64 - 1 := by decide
  have hu := u.room
  omega

/-- A successful `recvmsg` takes one message from its queue, a failed one takes none. -/
theorem recvmsg_pending (t : Msgq) (u : User) (i : QueueId) (type bufflen : Int) :
    ((act t (.recvmsg u (i.val : Int) type bufflen)).table i).bag.card +
      (if (act t (.recvmsg u (i.val : Int) type bufflen)).ret = -1 then 0 else 1) =
        (t i).bag.card := by
  generalize hc : Call.recvmsg u (i.val : Int) type bufflen = c
  have heff := act_effect t c
  generalize act t c = o at heff ⊢
  cases heff with
  | failed => simp
  | found | opened | counted | spoilt | stored => cases hc
  | @taken u' quid type' bufflen' k j hi hj hroom =>
    cases hc
    have hki : k = i := Fin.ext (by exact_mod_cast (queueOf_eq hi).symm)
    subst hki
    obtain ⟨hv, -⟩ := slotOf_some hj
    have hne := copyLength_ne hroom
    have hcard := congrArg Multiset.card (bag_put (t k) j { (t k).msg j with valid := false })
    rw [Multiset.card_add, Multiset.card_add, content_card, content_card, if_pos hv,
      if_neg (by simp)] at hcard
    change (update t k _ k).bag.card + (if copyLength _ _ = -1 then 0 else 1) = _
    rw [if_neg hne, update_self]
    exact hcard

/-- The arguments of a `recvmsg` but for the queue. -/
structure Receive where
  buffer : User
  type : Int
  bufflen : Int

/-- How many of some `recvmsg` calls on a queue succeed. -/
def receipts (i : QueueId) : Msgq → List Receive → Nat
  | _, [] => 0
  | t, r :: rs =>
    (if (act t (.recvmsg r.buffer i r.type r.bufflen)).ret = -1 then 0 else 1) +
      receipts i (act t (.recvmsg r.buffer i r.type r.bufflen)).table rs

theorem receipts_le (i : QueueId) (rs : List Receive) (t : Msgq) :
    receipts i t rs ≤ (t i).bag.card := by
  induction rs generalizing t with
  | nil => exact Nat.zero_le _
  | cons r rs ih =>
    have hone := recvmsg_pending t r.buffer i r.type r.bufflen
    have hrest := ih (act t (.recvmsg r.buffer i r.type r.bufflen)).table
    rw [receipts]
    omega

/-- A buffer that a whole message fits in. -/
def ample : User := ⟨[], 128, fun _ => 0, by decide⟩

theorem unsigned_of_range {n : Int} (h : 0 ≤ n) (hlt : n ≤ 128) : unsigned n = n.toNat := by
  unfold unsigned
  rw [Int.emod_eq_of_lt h (by omega)]

theorem slotOf_isSome (hv : (q.msg j).valid = true) :
    ∃ k, slotOf q (q.msg j).type = some k := by
  cases hk : slotOf q (q.msg j).type with
  | some k => exact ⟨k, rfl⟩
  | none =>
    have hno := List.find?_eq_none.mp hk j (List.mem_finRange j)
    simp [hv] at hno

/-- `recvmsg` on a queue that has a message of the type, with room for what it copies. -/
theorem recvmsg_succeeds (h : MsgInv t) {quid type bufflen : Int} (hi : queueOf t quid = some i)
    (hj : slotOf (t i) type = some j) (hpos : 0 ≤ bufflen) (hroom : bufflen ≤ u.writable) :
    (act t (.recvmsg u quid type bufflen)).ret ≠ -1 := by
  obtain ⟨hv, -⟩ := slotOf_some hj
  have hlen := (h.queue i).len j hv
  have hcopy : 0 ≤ copyLength ((t i).msg j) bufflen ∧
      copyLength ((t i).msg j) bufflen ≤ 128 ∧
      copyLength ((t i).msg j) bufflen ≤ bufflen := by
    unfold copyLength
    split <;> omega
  have hfits : ¬ u.writable < unsigned (copyLength ((t i).msg j) bufflen) := by
    rw [unsigned_of_range hcopy.1 hcopy.2.1]
    omega
  have hret : (act t (.recvmsg u quid type bufflen)).ret = copyLength ((t i).msg j) bufflen := by
    simp only [act, sysRecvmsg, hi, hj, if_neg hfits]
  rw [hret]
  omega

theorem receipts_all (i : QueueId) (h : MsgInv t) (hu : (t i).used = true) :
    ∃ rs, receipts i t rs = (t i).bag.card := by
  induction hn : (t i).bag.card generalizing t with
  | zero => exact ⟨[], rfl⟩
  | succ n ih =>
    -- any pending message will do: ask for its type
    obtain ⟨x, hx⟩ := Multiset.card_pos_iff_exists_mem.mp (by omega : 0 < (t i).bag.card)
    obtain ⟨j, hv, -⟩ := mem_bag.mp hx
    obtain ⟨k, hk⟩ := slotOf_isSome hv
    let c := Call.recvmsg ample i ((t i).msg j).type 128
    have hret : (act t c).ret ≠ -1 :=
      recvmsg_succeeds h (queueOf_val hu) hk (by decide) (by decide)
    have hone : ((act t c).table i).bag.card + (if (act t c).ret = -1 then 0 else 1) =
        (t i).bag.card := recvmsg_pending t ample i _ 128
    rw [if_neg hret, hn] at hone
    obtain ⟨rs, hrs⟩ :=
      ih (h.effect (act_effect t c)) (((act_effect t c).key hu).1.trans hu) (by omega)
    refine ⟨⟨ample, ((t i).msg j).type, 128⟩ :: rs, ?_⟩
    rw [receipts, if_neg hret]
    change 1 + receipts i (act t c).table rs = n + 1
    omega

/-- The table's invariant, with its two consequences: a queue that is not full has a free slot, and
`msgcount` is the greatest number of receipts that calls of `recvmsg` can still have. -/
theorem msgq_invariant {t : Msgq} (h : Reach t) :
    (∀ i j, (t i).used = true → (t j).used = true → (t i).key = (t j).key → i = j) ∧
    (∀ (key : Int) (i : QueueId) (t' : Msgq), (act t (.msgget key)).ret = (i.val : Int) →
      ReflTransGen Next (act t (.msgget key)).table t' →
        (act t' (.msgget key)).ret = (i.val : Int)) ∧
    ∀ i, (t i).used = true →
      ((t i).count = (t i).pending ∧ 0 ≤ (t i).count ∧ (t i).count ≤ 10 ∧
        ∀ j, ((t i).msg j).valid = true → 1 ≤ ((t i).msg j).len ∧ ((t i).msg j).len ≤ 128) ∧
      ((t i).count ≠ 10 → freeSlot (t i) ≠ none) ∧
      (act t (.msgcount i)).ret = (t i).pending ∧
      (∀ rs, receipts i t rs ≤ (t i).pending) ∧ ∃ rs, receipts i t rs = (t i).pending := by
  have hinv := h.inv
  refine ⟨hinv.keys, ?_, ?_⟩
  · intro key i t' hret hrun
    obtain ⟨hu, hkey⟩ := msgget_opens hret
    obtain ⟨hu', hkey'⟩ := key_kept hrun hu
    obtain ⟨t₀, hstart⟩ := h
    have hreach : Reach t' := ⟨t₀, (hstart.tail ⟨.msgget key, rfl⟩).trans hrun⟩
    have hsame : (t' i).key = key := hkey'.trans hkey
    have hget := msgget_used hreach.inv hu'
    rw [hsame] at hget
    rw [hget]
  · intro i hu
    have hcount : (t i).count = (t i).pending := by
      rw [(hinv.queue i).count, bag_card]
    have hle := pending_le (t i)
    refine ⟨⟨hcount, by omega, by omega, (hinv.queue i).len⟩, ?_, ?_, ?_, ?_⟩
    · intro hne hnone
      have hfull := freeSlot_none hnone
      omega
    · rw [← hcount, act, sysMsgcount, queueOf_val hu]
    · intro rs
      rw [← bag_card]
      exact receipts_le i rs t
    · rw [← bag_card]
      exact receipts_all i hinv hu

/-- A table with nothing in it, before `msginit`. -/
def blank : Msgq := fun _ =>
  ⟨0, false, fun _ => ⟨0, List.replicate 128 0, 0, false, List.length_replicate⟩, 0⟩

/-- A buffer that holds some bytes, with room for a whole message. -/
def holding (bytes : List UInt8) : User := ⟨bytes, 128, fun _ => 0, by decide⟩

theorem msgq_invariant_sent :
    (act (run (msginit blank) [.msgget 123, .sendmsg (holding [104, 105]) 0 1 2])
      (.msgcount 0)).ret = 1 ∧
    ∃ rs, receipts 0 (run (msginit blank) [.msgget 123, .sendmsg (holding [104, 105]) 0 1 2]) rs =
      1 := by
  have hreach := Reach.run blank [.msgget 123, .sendmsg (holding [104, 105]) 0 1 2]
  have hpending : (run (msginit blank)
      [.msgget 123, .sendmsg (holding [104, 105]) 0 1 2] 0).pending = 1 := by decide +kernel
  obtain ⟨-, -, hqueue⟩ := msgq_invariant hreach
  obtain ⟨-, -, hcount, -, hall⟩ := hqueue 0 (by decide +kernel)
  rw [hpending] at hcount hall
  exact ⟨hcount, hall⟩

/-! ## A queue as a bag -/

abbrev Bag := Multiset (Int × List UInt8)

/-- A call on bags of messages, with what it returns and the bytes that it delivers. -/
inductive BagStep (b : QueueId → Bag) : Call → Int → List UInt8 → (QueueId → Bag) → Prop
  | asked {key r : Int} : BagStep b (.msgget key) r [] b
  | counted {i : QueueId} : BagStep b (.msgcount i) (b i).card [] b
  | failed {c : Call} {d : List UInt8} : BagStep b c (-1) d b
  | sent {u : User} {i : QueueId} {type len : Int} (hroom : (b i).card < 10)
      (hlen : 1 ≤ len ∧ len ≤ 128) (hread : len.toNat ≤ u.readable.length) :
      BagStep b (.sendmsg u i type len) 0 []
        (update b i ((type, u.readable.take len.toNat) ::ₘ b i))
  | received {u : User} {i : QueueId} {type n : Int} {bytes : List UInt8}
      (hmem : (type, bytes) ∈ b i) :
      BagStep b (.recvmsg u i type n) (min (bytes.length : Int) n)
        (bytes.take (min (bytes.length : Int) n).toNat)
        (update b i ((b i).erase (type, bytes)))

/-- A call, what it returned and the bytes that it delivered. -/
abbrev Exchange := Call × Int × List UInt8

inductive BagRun : (QueueId → Bag) → List Exchange → (QueueId → Bag) → Prop
  | nil {b : QueueId → Bag} : BagRun b [] b
  | cons {b b' b'' : QueueId → Bag} {c : Call} {r : Int} {d : List UInt8} {es : List Exchange}
      (hstep : BagStep b c r d b') (hrest : BagRun b' es b'') : BagRun b ((c, r, d) :: es) b''

/-- What the callers see of a run. -/
def exchanges (t : Msgq) : List Call → List Exchange
  | [] => []
  | c :: cs => (c, (act t c).ret, (act t c).delivered) :: exchanges (act t c).table cs

/-- The length of a receiver's buffer is not negative. -/
def Call.Sized : Call → Prop
  | .recvmsg _ _ _ bufflen => 0 ≤ bufflen
  | _ => True

theorem bags_update (t : Msgq) (i : QueueId) (q : Msgqueue) :
    bags (update t i q) = update (bags t) i q.bag := by
  funext k
  by_cases hk : k = i
  · subst hk
    rw [bags, update_self, update_self]
  · rw [bags, update_of_ne hk, update_of_ne hk, bags]

theorem bags_update_same (h : q.bag = (t i).bag) :
    bags (update t i q) = bags t := by
  rw [bags_update, h]
  exact update_eq_self i (bags t)

/-- The message that `sendmsg` stores is what it read. -/
theorem store_content (m : Message) {type len : Int} {bytes : List UInt8}
    (hread : len.toNat ≤ bytes.length) (hgot : (bytes.take len.toNat).length ≤ 128) :
    (m.store type len true (bytes.take len.toNat) hgot).content =
      {(type, bytes.take len.toNat)} := by
  have hlen : (bytes.take len.toNat).length = len.toNat := List.length_take_of_le hread
  have htake : (bytes.take len.toNat ++ m.data.drop (bytes.take len.toNat).length).take len.toNat =
      bytes.take len.toNat := List.take_left' hlen
  simp only [Message.content, Message.store, if_true, htake]

theorem copied_eq {n : Nat} (hn : n ≤ 128) (hroom : n ≤ u.writable) :
    copied m u n = m.data.take n := by
  have hsize := m.size
  rw [copied, Nat.min_eq_left hroom]
  apply List.ext_getElem
  · rw [List.length_map, List.length_range, List.length_take]
    omega
  · intro k hk _
    rw [List.length_map, List.length_range] at hk
    have hkm : k < m.data.length := by omega
    rw [List.getElem_map, List.getElem_range, List.getElem_take, sourceByte, dif_pos hkm]

theorem copyLength_min {n : Int} (hlen : 1 ≤ m.len ∧ m.len ≤ 128) :
    copyLength m n = min ((m.data.take m.len.toNat).length : Int) n := by
  have hsize : ((m.data.take m.len.toNat).length : Int) = m.len := by
    rw [List.length_take, m.size]
    omega
  rw [hsize, copyLength, min_def]
  split <;> split <;> omega

/-- What a receiver gets, as the beginning of the message's bytes. -/
theorem copied_min {n : Int} (hlen : 1 ≤ m.len ∧ m.len ≤ 128) (hn : 0 ≤ n)
    (hroom : unsigned (copyLength m n) ≤ u.writable) :
    copied m u (unsigned (copyLength m n)) =
      (m.data.take m.len.toNat).take (min ((m.data.take m.len.toNat).length : Int) n).toNat := by
  have hrange : 0 ≤ copyLength m n ∧ copyLength m n ≤ m.len := by
    unfold copyLength
    split <;> omega
  have hunsigned : unsigned (copyLength m n) = (copyLength m n).toNat :=
    unsigned_of_range hrange.1 (by omega)
  rw [copied_eq (by omega) hroom, ← copyLength_min hlen, List.take_take, hunsigned,
    Nat.min_eq_left (by omega)]

theorem MsgInv.bagStep (h : MsgInv t) {o : Outcome} (he : Effect t c o) (hc : c.Sized) :
    BagStep (bags t) c o.ret o.delivered (bags o.table) := by
  cases he with
  | found => exact .asked
  | @opened key i hnew hu =>
    have hbags : bags (Function.update t i { t i with used := true, key := key, count := 0 }) =
        bags t := bags_update_same rfl
    rw [hbags]
    exact .asked
  | failed => exact .failed
  | @counted quid i hi =>
    rw [queueOf_eq hi, (h.queue i).count]
    exact .counted
  | @spoilt u quid type len i j m hi hj hm =>
    have hbag : ((t i).put j m).bag = (t i).bag := by
      rw [bag_fill hj, Message.content, if_neg (by simp [hm]), add_zero]
    rw [bags_update_same hbag]
    exact .failed
  | @stored u quid type len i j hi hj hlen hread hfull hgot =>
    have hcount := (h.queue i).count
    have hle : (t i).bag.card ≤ 10 := (bag_card (t i)).trans_le (pending_le (t i))
    have hroom : (bags t i).card < 10 := by
      change (t i).bag.card < 10
      omega
    rw [queueOf_eq hi, bags_update]
    change BagStep _ _ _ _ (Function.update _ i ((t i).put j _).bag)
    rw [bag_fill (freeSlot_some hj), store_content _ hread hgot, Multiset.add_comm,
      Multiset.singleton_add]
    exact .sent hroom hlen hread
  | @taken u quid type bufflen i j hi hj hroom =>
    obtain ⟨hv, rfl⟩ := slotOf_some hj
    have hlen := (h.queue i).len j hv
    change BagStep _ _ (copyLength _ _) (copied _ _ _) _
    rw [queueOf_eq hi, bags_update, copied_min hlen hc hroom, copyLength_min hlen]
    change BagStep _ _ _ _ (Function.update _ i ((t i).put j _).bag)
    rw [bag_take hv rfl]
    exact .received (mem_bag.mpr ⟨j, hv, rfl⟩)

theorem MsgInv.bagRun (h : MsgInv t) (cs : List Call) (hcs : ∀ c ∈ cs, c.Sized) :
    BagRun (bags t) (exchanges t cs) (bags (run t cs)) := by
  induction cs generalizing t with
  | nil => exact .nil
  | cons c cs ih =>
    have heff := act_effect t c
    exact .cons (h.bagStep heff (hcs c List.mem_cons_self))
      (ih (h.effect heff) fun c' hc' => hcs c' (List.mem_cons_of_mem c hc'))

theorem bags_init (t : Msgq) : bags (msginit t) = fun _ => 0 := by
  funext i
  exact bag_init t i

/-- A run is a run on bags of at most ten messages, and `recvmsg` fails on a queue in use with a
buffer that can be written only if the queue has no message of the type. -/
theorem queues_are_bags (t : Msgq) (cs : List Call) (hcs : ∀ c ∈ cs, c.Sized) :
    BagRun (fun _ => 0) (exchanges (msginit t) cs) (bags (run (msginit t) cs)) ∧
    (∀ i, (bags (run (msginit t) cs) i).card ≤ 10) ∧
    ∀ (u : User) (quid type n : Int) (i : QueueId), queueOf (run (msginit t) cs) quid = some i →
      0 ≤ n → n ≤ u.writable → (act (run (msginit t) cs) (.recvmsg u quid type n)).ret = -1 →
      ∀ bytes, (type, bytes) ∉ bags (run (msginit t) cs) i := by
  have hinv := (Reach.run t cs).inv
  refine ⟨?_, ?_, ?_⟩
  · rw [← bags_init t]
    exact (MsgInv.init t).bagRun cs hcs
  · intro i
    exact (bag_card _).trans_le (pending_le _)
  · intro u quid type n i hi hn hroom hret bytes hmem
    obtain ⟨j, hv, heq⟩ := mem_bag.mp hmem
    cases heq
    obtain ⟨k, hk⟩ := slotOf_isSome hv
    exact recvmsg_succeeds hinv hi hk hn hroom hret

theorem queues_are_bags_one_message :
    BagRun (fun _ => 0)
      (exchanges (msginit blank)
        [.msgget 5, .sendmsg (holding [1, 2, 3]) 0 7 3, .recvmsg (holding []) 0 7 2])
      (bags (run (msginit blank)
        [.msgget 5, .sendmsg (holding [1, 2, 3]) 0 7 3, .recvmsg (holding []) 0 7 2])) := by
  have hsized : ∀ c ∈ [Call.msgget 5, .sendmsg (holding [1, 2, 3]) 0 7 3,
      .recvmsg (holding []) 0 7 2], c.Sized := by
    simp [Call.Sized]
  exact (queues_are_bags blank _ hsized).1

/-! ## The order of the messages of a type -/

/-- The slot that a call fills with a message, and the message's type. -/
def stores (t : Msgq) : Call → Option (QueueId × SlotId × Int)
  | .sendmsg u quid type len =>
    if (act t (.sendmsg u quid type len)).ret = 0 then
      (queueOf t quid).bind fun i => (freeSlot (t i)).map fun j => (i, j, type)
    else none
  | _ => none

/-- The slot from which a call takes a message. -/
def takes (t : Msgq) : Call → Option (QueueId × SlotId)
  | .recvmsg u quid type bufflen =>
    if (act t (.recvmsg u quid type bufflen)).ret = -1 then none
    else (queueOf t quid).bind fun i => (slotOf (t i) type).map fun j => (i, j)
  | _ => none

/-- A table with its history: the messages are numbered as they are sent. -/
structure Track where
  table : Msgq
  /-- The number of the message in a slot. -/
  tag : QueueId → SlotId → Nat
  /-- The queue and the type of every message that was sent. -/
  sent : List (QueueId × Int)
  /-- The numbers of the messages that were received. -/
  received : List Nat

def Track.act (s : Track) (c : Call) : Track where
  table := (KernelMsg.act s.table c).table
  tag :=
    match stores s.table c with
    | some (i, j, _) => fun k l => if k = i ∧ l = j then s.sent.length else s.tag k l
    | none => s.tag
  sent :=
    match stores s.table c with
    | some (i, _, type) => s.sent ++ [(i, type)]
    | none => s.sent
  received :=
    match takes s.table c with
    | some (i, j) => s.received ++ [s.tag i j]
    | none => s.received

def Track.start (t : Msgq) : Track := ⟨msginit t, fun _ _ => 0, [], []⟩

def Track.run (s : Track) : List Call → Track
  | [] => s
  | c :: cs => (s.act c).run cs

/-- Whoever is received comes after all that were sent before it to the same queue with the same
type. -/
def InOrder (s : Track) : Prop :=
  ∀ n m m', s.received[n]? = some m' → m < m' → s.sent[m]? = s.sent[m']? → m ∈ s.received.take n

/-- A message is not stored below a pending one of its type. -/
def AtTop (t : Msgq) (c : Call) : Prop :=
  ∀ x ∈ stores t c, ∀ k, x.2.1 < k → ((t x.1).msg k).valid = true → ((t x.1).msg k).type ≠ x.2.2

instance (t : Msgq) (c : Call) : Decidable (AtTop t c) :=
  inferInstanceAs (Decidable (∀ x ∈ stores t c, ∀ k, x.2.1 < k →
    ((t x.1).msg k).valid = true → ((t x.1).msg k).type ≠ x.2.2))

/-- Every call of a run is `AtTop`. -/
def AllAtTop : Msgq → List Call → Prop
  | _, [] => True
  | t, c :: cs => AtTop t c ∧ AllAtTop (act t c).table cs

instance AllAtTop.decidable : (t : Msgq) → (cs : List Call) → Decidable (AllAtTop t cs)
  | _, [] => inferInstanceAs (Decidable True)
  | t, c :: cs =>
    have := AllAtTop.decidable (act t c).table cs
    inferInstanceAs (Decidable (AtTop t c ∧ AllAtTop (act t c).table cs))

/-- The numbering fits the table, and within a type it rises from slot to slot. -/
structure Tracked (s : Track) : Prop where
  known : ∀ i j, ((s.table i).msg j).valid = true →
    s.sent[s.tag i j]? = some (i, ((s.table i).msg j).type)
  left : ∀ m, m < s.sent.length →
    m ∈ s.received ∨ ∃ i j, ((s.table i).msg j).valid = true ∧ s.tag i j = m
  rise : ∀ i j k, j < k → ((s.table i).msg j).valid = true → ((s.table i).msg k).valid = true →
    ((s.table i).msg j).type = ((s.table i).msg k).type → s.tag i j < s.tag i k
  bound : ∀ m ∈ s.received, m < s.sent.length
  order : InOrder s

theorem Tracked.tag_lt (h : Tracked s) (hv : ((s.table i).msg j).valid = true) :
    s.tag i j < s.sent.length := by
  obtain ⟨hlt, -⟩ := List.getElem?_eq_some_iff.mp (h.known i j hv)
  exact hlt

theorem Tracked.start (t : Msgq) : Tracked (Track.start t) where
  known := nofun
  left := nofun
  rise := nofun
  bound := nofun
  order := nofun

/-- The valid slots, with their types, are the same. -/
def SameSlots (t t' : Msgq) : Prop :=
  ∀ i j, ((t' i).msg j).valid = ((t i).msg j).valid ∧
    (((t i).msg j).valid = true → ((t' i).msg j).type = ((t i).msg j).type)

theorem Tracked.same (h : Tracked s) (hsame : SameSlots s.table t) :
    Tracked { s with table := t } := by
  constructor
  · intro i j hv
    obtain ⟨hvalid, htype⟩ := hsame i j
    have hv' : ((s.table i).msg j).valid = true := hvalid.symm.trans hv
    change s.sent[s.tag i j]? = some (i, ((t i).msg j).type)
    rw [htype hv']
    exact h.known i j hv'
  · intro m hm
    rcases h.left m hm with hgot | ⟨i, j, hv, htag⟩
    · exact .inl hgot
    · exact .inr ⟨i, j, (hsame i j).1.trans hv, htag⟩
  · intro i j k hjk hj hk htype
    have hj' := (hsame i j).1.symm.trans hj
    have hk' := (hsame i k).1.symm.trans hk
    exact h.rise i j k hjk hj' hk'
      (((hsame i j).2 hj').symm.trans (htype.trans ((hsame i k).2 hk')))
  · exact h.bound
  · exact h.order

/-- One slot of a table is replaced. -/
theorem msg_update (hq : q.msg = update (t i).msg j m) (k : QueueId) (l : SlotId) :
    (update t i q k).msg l = if k = i ∧ l = j then m else (t k).msg l := by
  by_cases hk : k = i
  · subst hk
    rw [update_self, hq, update_apply]
    simp
  · rw [update_of_ne hk, if_neg (by simp [hk])]

theorem stores_some {type : Int} (h : stores t c = some (i, j, type)) :
    ((t i).msg j).valid = false ∧ ∃ m, m.valid = true ∧ m.type = type ∧
      ∀ k l, ((act t c).table k).msg l = if k = i ∧ l = j then m else (t k).msg l := by
  cases c with
  | msgget | recvmsg | msgcount => cases h
  | sendmsg u quid type' len =>
    rw [stores, Option.ite_none_right_eq_some] at h
    obtain ⟨hret, hslot⟩ := h
    simp only [Option.bind_eq_some_iff, Option.map_eq_some_iff, Prod.mk.injEq] at hslot
    obtain ⟨i', hi, j', hj, rfl, rfl, rfl⟩ := hslot
    have heff := act_effect t (.sendmsg u quid type' len)
    generalize act t (.sendmsg u quid type' len) = o at heff hret ⊢
    cases heff with
    | failed | spoilt => exact absurd hret (by simp)
    | @stored _ _ _ _ k l hk hl hlen hread hfull hgot =>
      cases hi.symm.trans hk
      cases hj.symm.trans hl
      exact ⟨freeSlot_some hj, _, rfl, rfl, msg_update rfl⟩

theorem takes_some (h : takes t c = some (i, j)) :
    (∃ type, slotOf (t i) type = some j) ∧ ∃ m, m.valid = false ∧
      ∀ k l, ((act t c).table k).msg l = if k = i ∧ l = j then m else (t k).msg l := by
  cases c with
  | msgget | sendmsg | msgcount => cases h
  | recvmsg u quid type bufflen =>
    rw [takes, Option.ite_none_left_eq_some] at h
    obtain ⟨hret, hslot⟩ := h
    simp only [Option.bind_eq_some_iff, Option.map_eq_some_iff, Prod.mk.injEq] at hslot
    obtain ⟨i', hi, j', hj, rfl, rfl⟩ := hslot
    have heff := act_effect t (.recvmsg u quid type bufflen)
    generalize act t (.recvmsg u quid type bufflen) = o at heff hret ⊢
    cases heff with
    | failed => exact absurd rfl hret
    | @taken _ _ _ _ k l hk hl hroom =>
      cases hi.symm.trans hk
      cases hj.symm.trans hl
      exact ⟨⟨type, hj⟩, _, rfl, msg_update rfl⟩

theorem act_same (hs : stores t c = none) (ht : takes t c = none) :
    SameSlots t (act t c).table := by
  have heff := act_effect t c
  generalize ho : act t c = o at heff ⊢
  cases heff with
  | found | counted | failed => exact fun i j => ⟨rfl, fun _ => rfl⟩
  | @opened key i =>
    intro k l
    change ((update t i _ k).msg l).valid = _ ∧ (_ → ((update t i _ k).msg l).type = _)
    by_cases hk : k = i
    · subst hk
      rw [update_self]
      exact ⟨rfl, fun _ => rfl⟩
    · rw [update_of_ne hk]
      exact ⟨rfl, fun _ => rfl⟩
  | @spoilt u quid type len i j m hi hj hm =>
    intro k l
    have hmsg : (update t i ((t i).put j m) k).msg l =
        if k = i ∧ l = j then m else (t k).msg l := msg_update rfl k l
    change ((update t i ((t i).put j m) k).msg l).valid = _ ∧
      (_ → ((update t i ((t i).put j m) k).msg l).type = _)
    rw [hmsg]
    split
    · next hkl =>
      obtain ⟨rfl, rfl⟩ := hkl
      rw [hj, hm]
      exact ⟨rfl, nofun⟩
    · exact ⟨rfl, fun _ => rfl⟩
  | stored hi hj =>
    rw [stores, ho, if_pos rfl, hi, Option.bind_some, hj] at hs
    cases hs
  | taken hi hj hroom =>
    rw [takes, ho, if_neg (copyLength_ne hroom), hi, Option.bind_some, hj] at ht
    cases ht

/-- The slot that `slotOf` finds is the lowest of its type. -/
theorem slotOf_le {type : Int} {j k : SlotId} (h : slotOf q type = some j)
    (hv : (q.msg k).valid = true) (htype : (q.msg k).type = type) : j ≤ k := by
  obtain ⟨-, n, hn, hj, hbelow⟩ := List.find?_eq_some_iff_getElem.mp h
  rw [List.getElem_finRange] at hj
  by_contra hlt
  have hjn : j.val = n := by
    rw [← hj]
    rfl
  have hkj : k.val < j.val := Fin.lt_def.mp (not_le.mp hlt)
  have hkn : k.val < n := by omega
  have hno := hbelow k.val hkn
  rw [List.getElem_finRange] at hno
  simp [hv, htype] at hno

theorem Tracked.store (h : Tracked s) {tag : QueueId → SlotId → Nat}
    (hfree : ((s.table i).msg j).valid = false) (hm : m.valid = true)
    (hmsg : ∀ k l, (t k).msg l = if k = i ∧ l = j then m else (s.table k).msg l)
    (htag : ∀ k l, tag k l = if k = i ∧ l = j then s.sent.length else s.tag k l)
    (htop : ∀ k, j < k → ((s.table i).msg k).valid = true → ((s.table i).msg k).type ≠ m.type) :
    Tracked ⟨t, tag, s.sent ++ [(i, m.type)], s.received⟩ := by
  have hnew : (t i).msg j = m := by rw [hmsg, if_pos ⟨rfl, rfl⟩]
  have hlast : tag i j = s.sent.length := by rw [htag, if_pos ⟨rfl, rfl⟩]
  constructor
  · intro k l hv
    change (s.sent ++ [(i, m.type)])[tag k l]? = some (k, ((t k).msg l).type)
    by_cases hkl : k = i ∧ l = j
    · obtain ⟨rfl, rfl⟩ := hkl
      rw [hnew, hlast, List.getElem?_concat_length]
    · rw [hmsg, if_neg hkl] at hv ⊢
      rw [htag, if_neg hkl, List.getElem?_append_left (h.tag_lt hv)]
      exact h.known k l hv
  · intro n hn
    rw [List.length_append, List.length_singleton] at hn
    by_cases he : n = s.sent.length
    · refine .inr ⟨i, j, ?_, hlast.trans he.symm⟩
      rw [hnew]
      exact hm
    · rcases h.left n (by omega) with hgot | ⟨k, l, hv, hold⟩
      · exact .inl hgot
      · have hkl : ¬ (k = i ∧ l = j) := by
          rintro ⟨rfl, rfl⟩
          rw [hfree] at hv
          cases hv
        refine .inr ⟨k, l, ?_, ?_⟩
        · rw [hmsg, if_neg hkl]
          exact hv
        · exact (htag k l).trans ((if_neg hkl).trans hold)
  · intro k l l' hlt hv hv' htype
    change tag k l < tag k l'
    by_cases hkl : k = i ∧ l = j
    · -- the slot above would be a pending message of the new one's type
      obtain ⟨rfl, rfl⟩ := hkl
      have hkl' : ¬ (k = k ∧ l' = l) := fun he => hlt.ne he.2.symm
      rw [hmsg, if_neg hkl'] at hv'
      rw [hnew, hmsg, if_neg hkl'] at htype
      exact absurd htype.symm (htop l' hlt hv')
    · rw [hmsg, if_neg hkl] at hv
      rw [htag, if_neg hkl]
      by_cases hkl' : k = i ∧ l' = j
      · rw [htag, if_pos hkl']
        exact h.tag_lt hv
      · rw [hmsg, if_neg hkl'] at hv'
        rw [hmsg, if_neg hkl, hmsg, if_neg hkl'] at htype
        rw [htag, if_neg hkl']
        exact h.rise k l l' hlt hv hv' htype
  · intro n hn
    have hlt := h.bound n hn
    rw [List.length_append]
    omega
  · intro n a b hb hab hsent
    have hblt := h.bound b (List.mem_of_getElem? hb)
    rw [List.getElem?_append_left hblt, List.getElem?_append_left (hab.trans hblt)] at hsent
    exact h.order n a b hb hab hsent

theorem Tracked.take (h : Tracked s) {type : Int} (hslot : slotOf (s.table i) type = some j)
    (hm : m.valid = false)
    (hmsg : ∀ k l, (t k).msg l = if k = i ∧ l = j then m else (s.table k).msg l) :
    Tracked { s with table := t, received := s.received ++ [s.tag i j] } := by
  obtain ⟨hv, htype⟩ := slotOf_some hslot
  have hold : ∀ k l, ((t k).msg l).valid = true →
      (t k).msg l = (s.table k).msg l ∧ ((s.table k).msg l).valid = true := by
    intro k l hkl
    rw [hmsg] at hkl ⊢
    split at hkl
    · rw [hm] at hkl
      cases hkl
    · next hne =>
      rw [if_neg hne]
      exact ⟨rfl, hkl⟩
  constructor
  · intro k l hkl
    rw [(hold k l hkl).1]
    exact h.known k l (hold k l hkl).2
  · intro n hn
    rcases h.left n hn with hgot | ⟨k, l, hkl, htag⟩
    · exact .inl (List.mem_append_left _ hgot)
    · by_cases he : k = i ∧ l = j
      · obtain ⟨rfl, rfl⟩ := he
        exact .inl (by simp [htag])
      · refine .inr ⟨k, l, ?_, htag⟩
        rw [hmsg, if_neg he]
        exact hkl
  · intro k l l' hlt hl hl' htypes
    rw [(hold k l hl).1, (hold k l' hl').1] at htypes
    exact h.rise k l l' hlt (hold k l hl).2 (hold k l' hl').2 htypes
  · intro n hn
    rcases List.mem_append.mp hn with hn | hn
    · exact h.bound n hn
    · rw [List.mem_singleton.mp hn]
      exact h.tag_lt hv
  · intro n a b hb hab hsent
    by_cases hn : n < s.received.length
    · rw [List.getElem?_append_left hn] at hb
      rw [List.take_append_of_le_length (by omega)]
      exact h.order n a b hb hab hsent
    · -- the new receipt: an earlier message of the type that is pending would lie in a lower slot
      rw [List.getElem?_append_right (by omega), List.getElem?_singleton] at hb
      obtain ⟨hlast, hb⟩ := Option.ite_none_right_eq_some.mp hb
      cases hb
      have hnlen : n = s.received.length := by omega
      rw [hnlen, List.take_left]
      rw [h.known i j hv] at hsent
      rcases h.left a (hab.trans (h.tag_lt hv)) with hgot | ⟨k, l, hkl, htag⟩
      · exact hgot
      · have hsame := h.known k l hkl
        rw [htag, hsent] at hsame
        obtain ⟨rfl, htypes⟩ := Prod.mk.inj (Option.some.inj hsame)
        have hle : j ≤ l := slotOf_le hslot hkl (htypes.symm.trans htype)
        rcases hle.lt_or_eq with hlt | rfl
        · have hrise := h.rise i j l hlt hv hkl htypes
          omega
        · omega

theorem Tracked.act (h : Tracked s) (htop : AtTop s.table c) :
    Tracked (s.act c) := by
  unfold Track.act
  cases hs : stores s.table c with
  | some x =>
    obtain ⟨i, j, type⟩ := x
    obtain ⟨hfree, m, hm, rfl, hmsg⟩ := stores_some hs
    have hnone : takes s.table c = none := by
      cases c with
      | sendmsg => rfl
      | msgget | recvmsg | msgcount => cases hs
    rw [hnone]
    exact h.store hfree hm hmsg (fun _ _ => rfl) (htop _ hs)
  | none =>
    cases ht : takes s.table c with
    | some x =>
      obtain ⟨i, j⟩ := x
      obtain ⟨⟨type, hslot⟩, m, hm, hmsg⟩ := takes_some ht
      exact h.take hslot hm hmsg
    | none => exact h.same (act_same hs ht)

theorem Tracked.run (h : Tracked s) {cs : List Call} (htop : AllAtTop s.table cs) :
    Tracked (s.run cs) := by
  induction cs generalizing s with
  | nil => exact h
  | cons c cs ih => exact ih (h.act htop.1) htop.2

/-- In every run that stores no message below a pending one of its type, the messages of a type
are received in the order in which they were sent. -/
theorem received_in_order (t : Msgq) (cs : List Call) (htop : AllAtTop (msginit t) cs) :
    InOrder ((Track.start t).run cs) :=
  ((Tracked.start t).run htop).order

theorem received_in_order_drained :
    InOrder ((Track.start blank).run
      [.msgget 1, .sendmsg (holding [97]) 0 1 1, .sendmsg (holding [98]) 0 1 1,
        .recvmsg (holding []) 0 1 8, .recvmsg (holding []) 0 1 8,
        .sendmsg (holding [99]) 0 1 1, .recvmsg (holding []) 0 1 8]) :=
  received_in_order blank _ (by decide +kernel)

/-- The slot of the first message is used again, for a third, while the second is pending. -/
def overtaking : List Call :=
  [.msgget 1, .sendmsg (holding [97]) 0 1 1, .sendmsg (holding [98]) 0 1 1,
    .recvmsg (holding []) 0 1 8, .sendmsg (holding [99]) 0 1 1, .recvmsg (holding []) 0 1 8]

/-- The third message is received before the second. -/
theorem overtaking_out_of_order : ¬ InOrder ((Track.start blank).run overtaking) := by
  intro h
  have hreceived : ((Track.start blank).run overtaking).received = [0, 2] := by decide +kernel
  have hsent : ((Track.start blank).run overtaking).sent = [(0, 1), (0, 1), (0, 1)] := by
    decide +kernel
  have hmem := h 1 1 2 (by rw [hreceived]; rfl) (by decide) (by rw [hsent]; rfl)
  rw [hreceived] at hmem
  exact absurd hmem (by decide)

end KernelMsg
