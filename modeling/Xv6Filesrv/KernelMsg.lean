import Xv6Filesrv.StateWp

/-!
# Message queues

`kernel/msg.h`, `msginit` of `kernel/msg.c`, and `sys_msgget`, `sys_sendmsg`, `sys_recvmsg` and
`sys_msgcount` of `kernel/sysproc.c`.  Every call holds `msgqlock` from its first look at the table
to its last, so a call is one step, and it does not matter which process makes it but for the
memory at its buffer.
-/

namespace KernelMsg

open Relation
open Function (update update_apply update_of_ne update_self)

variable {q : Msgqueue} {j : SlotId} {t : Msgq} {i : QueueId}

abbrev QueueId := Fin 10
abbrev SlotId := Fin 10

/-- `struct message`; `data` is an array of 128 bytes. -/
structure Message where
  type : Int
  data : List UInt8
  len : Int
  valid : Bool
  size : data.length = 128

structure Msgqueue where
  key : Int
  used : Bool
  msg : SlotId → Message
  count : Int

abbrev Msgq := QueueId → Msgqueue

/-- What a call finds: the bytes that `copyin` can read at its buffer before it fails, the number
of bytes that `copyout` can write there, and the kernel's bytes behind the message's. -/
structure User where
  readable : List UInt8
  writable : Nat
  behind : Nat → UInt8
  room : writable < 2 ^ 63

/-- `msginit`, whatever the table was before. -/
def msginit (t : Msgq) : Msgq := fun i =>
  { t i with
    used := false
    count := 0
    msg := fun j => { (t i).msg j with valid := false, len := 0, type := 0 } }

/-- A queue number as the system calls check it. -/
def queueOf (t : Msgq) (quid : Int) : Option QueueId :=
  if h : 0 ≤ quid ∧ quid < 10 then
    if (t ⟨quid.toNat, by omega⟩).used then some ⟨quid.toNat, by omega⟩ else none
  else none

def freeSlot (q : Msgqueue) : Option SlotId := (List.finRange 10).find? fun j => !(q.msg j).valid

/-- The first message of a type. -/
def slotOf (q : Msgqueue) (type : Int) : Option SlotId :=
  (List.finRange 10).find? fun j => (q.msg j).valid && (q.msg j).type == type

/-- What a call returns, the bytes that it wrote to the caller, and the table it leaves. -/
structure Outcome where
  ret : Int
  delivered : List UInt8
  table : Msgq

def sysMsgget (t : Msgq) (key : Int) : Outcome :=
  match (List.finRange 10).find? fun i => (t i).used && (t i).key == key with
  | some i => ⟨i.val, [], t⟩
  | none =>
    match (List.finRange 10).find? fun i => !(t i).used with
    | some i =>
      ⟨i.val, [], update t i { t i with used := true, key := key, count := 0 }⟩
    | none => ⟨-1, [], t⟩

/-- The data of a message after `copyin` has stored bytes in it. -/
theorem stored_size {data got : List UInt8} (hd : data.length = 128) (hg : got.length ≤ 128) :
    (got ++ data.drop got.length).length = 128 := by
  rw [List.length_append, List.length_drop]
  omega

/-- A slot with a new header, into which `copyin` has stored some bytes. -/
def Message.store (m : Message) (type len : Int) (valid : Bool) (got : List UInt8)
    (h : got.length ≤ 128) : Message :=
  ⟨type, got ++ m.data.drop got.length, len, valid, stored_size m.size h⟩

def Msgqueue.put (q : Msgqueue) (j : SlotId) (m : Message) : Msgqueue :=
  { q with msg := update q.msg j m }

def sysSendmsg (t : Msgq) (u : User) (quid type len : Int) : Outcome :=
  match queueOf t quid with
  | none => ⟨-1, [], t⟩
  | some i =>
    if h : len ≤ 0 ∨ 128 < len then ⟨-1, [], t⟩
    else if (t i).count = 10 then ⟨-1, [], t⟩
    else
      match freeSlot (t i) with
      | none => ⟨-1, [], t⟩
      | some j =>
        have hgot : (u.readable.take len.toNat).length ≤ 128 := by
          rw [List.length_take]
          omega
        if u.readable.length < len.toNat then
          ⟨-1, [], update t i ((t i).put j
            (((t i).msg j).store type len ((t i).msg j).valid (u.readable.take len.toNat) hgot))⟩
        else
          ⟨0, [], update t i
            { (t i).put j
                (((t i).msg j).store type len true (u.readable.take len.toNat) hgot) with
              count := (t i).count + 1 }⟩

/-- The `i`-th byte from the beginning of a message's data on. -/
def sourceByte (m : Message) (u : User) (i : Nat) : UInt8 :=
  if h : i < m.data.length then m.data[i] else u.behind (i - m.data.length)

/-- The bytes that `copyout` writes if it is asked for `n` bytes. -/
def copied (m : Message) (u : User) (n : Nat) : List UInt8 :=
  (List.range (min n u.writable)).map (sourceByte m u)

/-- `copylen` of `sys_recvmsg`. -/
def copyLength (m : Message) (bufflen : Int) : Int := if m.len < bufflen then m.len else bufflen

/-- The length as `copyout` takes it, which is unsigned. -/
def unsigned (copylen : Int) : Nat := (copylen % 2 ^ 64).toNat

def sysRecvmsg (t : Msgq) (u : User) (quid type bufflen : Int) : Outcome :=
  match queueOf t quid with
  | none => ⟨-1, [], t⟩
  | some i =>
    match slotOf (t i) type with
    | none => ⟨-1, [], t⟩
    | some j =>
      let m := (t i).msg j
      let copylen := copyLength m bufflen
      if u.writable < unsigned copylen then ⟨-1, copied m u (unsigned copylen), t⟩
      else
        ⟨copylen, copied m u (unsigned copylen), update t i
          { (t i).put j { m with valid := false } with count := (t i).count - 1 }⟩

def sysMsgcount (t : Msgq) (quid : Int) : Outcome :=
  match queueOf t quid with
  | none => ⟨-1, [], t⟩
  | some i => ⟨(t i).count, [], t⟩

inductive Call where
  | msgget (key : Int)
  | sendmsg (u : User) (quid type len : Int)
  | recvmsg (u : User) (quid type bufflen : Int)
  | msgcount (quid : Int)

def act (t : Msgq) : Call → Outcome
  | .msgget key => sysMsgget t key
  | .sendmsg u quid type len => sysSendmsg t u quid type len
  | .recvmsg u quid type bufflen => sysRecvmsg t u quid type bufflen
  | .msgcount quid => sysMsgcount t quid

def Next (t t' : Msgq) : Prop := ∃ c, t' = (act t c).table

/-- A table that calls can make from an initialised one. -/
def Reach (t : Msgq) : Prop := ∃ t₀, ReflTransGen Next (msginit t₀) t

/-! ## What a call can do -/

/-- All that a call can do to the table. -/
inductive Effect (t : Msgq) : Call → Outcome → Prop
  | found {key : Int} {i : QueueId} (hu : (t i).used = true) (hk : (t i).key = key) :
      Effect t (.msgget key) ⟨i.val, [], t⟩
  | opened {key : Int} {i : QueueId} (hnew : ∀ k, (t k).used = true → (t k).key ≠ key)
      (hu : (t i).used = false) :
      Effect t (.msgget key)
        ⟨i.val, [], update t i { t i with used := true, key := key, count := 0 }⟩
  | counted {quid : Int} {i : QueueId} (hi : queueOf t quid = some i) :
      Effect t (.msgcount quid) ⟨(t i).count, [], t⟩
  | failed {c : Call} {d : List UInt8} : Effect t c ⟨-1, d, t⟩
  | spoilt {u : User} {quid type len : Int} {i : QueueId} {j : SlotId} {m : Message}
      (hi : queueOf t quid = some i) (hj : ((t i).msg j).valid = false) (hm : m.valid = false) :
      Effect t (.sendmsg u quid type len) ⟨-1, [], update t i ((t i).put j m)⟩
  | stored {u : User} {quid type len : Int} {i : QueueId} {j : SlotId}
      (hi : queueOf t quid = some i) (hj : freeSlot (t i) = some j) (hlen : 1 ≤ len ∧ len ≤ 128)
      (hread : len.toNat ≤ u.readable.length) (hfull : (t i).count ≠ 10)
      (hgot : (u.readable.take len.toNat).length ≤ 128) :
      Effect t (.sendmsg u quid type len) ⟨0, [], update t i
        { (t i).put j (((t i).msg j).store type len true (u.readable.take len.toNat) hgot) with
          count := (t i).count + 1 }⟩
  | taken {u : User} {quid type bufflen : Int} {i : QueueId} {j : SlotId}
      (hi : queueOf t quid = some i) (hj : slotOf (t i) type = some j)
      (hroom : unsigned (copyLength ((t i).msg j) bufflen) ≤ u.writable) :
      Effect t (.recvmsg u quid type bufflen)
        ⟨copyLength ((t i).msg j) bufflen,
          copied ((t i).msg j) u (unsigned (copyLength ((t i).msg j) bufflen)),
          update t i
            { (t i).put j { (t i).msg j with valid := false } with count := (t i).count - 1 }⟩

theorem freeSlot_some (h : freeSlot q = some j) :
    (q.msg j).valid = false := by
  have hfound := List.find?_some h
  simpa using hfound

theorem slotOf_some {type : Int} (h : slotOf q type = some j) :
    (q.msg j).valid = true ∧ (q.msg j).type = type := by
  have hfound := List.find?_some h
  simpa using hfound

theorem queueOf_used {quid : Int} (h : queueOf t quid = some i) :
    (t i).used = true := by
  unfold queueOf at h
  split at h
  · split at h
    · next hu =>
      cases h
      exact hu
    · cases h
  · cases h

theorem act_effect (t : Msgq) (c : Call) : Effect t c (act t c) := by
  cases c with
  | msgget key =>
    rw [act, sysMsgget]
    split
    · next i hfind =>
      have hfound : (t i).used = true ∧ (t i).key = key := by simpa using List.find?_some hfind
      exact .found hfound.1 hfound.2
    · next hnone =>
      split
      · next i hfind =>
        have hunused : (t i).used = false := by simpa using List.find?_some hfind
        have hnew : ∀ k, (t k).used = true → (t k).key ≠ key := by
          intro k hk hkey
          have hno := List.find?_eq_none.mp hnone k (List.mem_finRange k)
          simp [hk, hkey] at hno
        exact .opened hnew hunused
      · exact .failed
  | sendmsg u quid type len =>
    rw [act, sysSendmsg]
    split
    · exact .failed
    · next i hi =>
      split
      · exact .failed
      · next hlen =>
        split
        · exact .failed
        · next hfull =>
          split
          · exact .failed
          · next j hj =>
            have hfree := freeSlot_some hj
            split
            · exact .spoilt hi hfree hfree
            · exact .stored hi hj (by omega) (by omega) hfull _
  | recvmsg u quid type bufflen =>
    rw [act, sysRecvmsg]
    split
    · exact .failed
    · next i hi =>
      split
      · exact .failed
      · next j hj =>
        simp only
        split
        · exact .failed
        · next hroom => exact .taken hi hj (Nat.le_of_not_lt hroom)
  | msgcount quid =>
    rw [act, sysMsgcount]
    split
    · exact .failed
    · next i hi => exact .counted hi

/-! ## The messages of a queue -/

/-- The message in a slot, as its type and its bytes. -/
def Message.content (m : Message) : Multiset (Int × List UInt8) :=
  if m.valid then {(m.type, m.data.take m.len.toNat)} else 0

/-- The pending messages of a queue. -/
def Msgqueue.bag (q : Msgqueue) : Multiset (Int × List UInt8) := ∑ j, (q.msg j).content

def bags (t : Msgq) (i : QueueId) : Multiset (Int × List UInt8) := (t i).bag

/-- The number of slots with `valid = 1`. -/
def Msgqueue.pending (q : Msgqueue) : Nat :=
  (Finset.univ.filter fun j => (q.msg j).valid = true).card

theorem content_card (m : Message) : m.content.card = if m.valid = true then 1 else 0 := by
  unfold Message.content
  split <;> simp

theorem bag_card (q : Msgqueue) : q.bag.card = q.pending := by
  rw [Msgqueue.bag, Msgqueue.pending, Finset.card_filter, Multiset.card_sum]
  exact Finset.sum_congr rfl fun j _ => content_card (q.msg j)

theorem pending_le (q : Msgqueue) : q.pending ≤ 10 :=
  (Finset.card_filter_le _ _).trans (by simp)

/-- Replacing the message of one slot. -/
theorem bag_put (q : Msgqueue) (j : SlotId) (m : Message) :
    (q.put j m).bag + (q.msg j).content = q.bag + m.content :=
  StateWp.sum_update Finset.univ Message.content q.msg j m (Finset.mem_univ j)

theorem bag_fill {m : Message} (hj : (q.msg j).valid = false) :
    (q.put j m).bag = q.bag + m.content := by
  have h := bag_put q j m
  simpa [Message.content, hj] using h

/-- A valid slot that becomes invalid. -/
theorem bag_take {m : Message} (hj : (q.msg j).valid = true) (hm : m.valid = false) :
    (q.put j m).bag = q.bag.erase ((q.msg j).type, (q.msg j).data.take (q.msg j).len.toNat) := by
  have h := bag_put q j m
  simp only [Message.content, hj, hm, if_true, Bool.false_eq_true, if_false, add_zero] at h
  rw [← h, Multiset.add_comm, Multiset.singleton_add, Multiset.erase_cons_head]

theorem mem_bag {x : Int × List UInt8} :
    x ∈ q.bag ↔
      ∃ j, (q.msg j).valid = true ∧ x = ((q.msg j).type, (q.msg j).data.take (q.msg j).len.toNat) := by
  rw [Msgqueue.bag, Multiset.mem_sum]
  constructor
  · rintro ⟨j, -, hx⟩
    refine ⟨j, ?_⟩
    unfold Message.content at hx
    split at hx
    · next hv => exact ⟨hv, by simpa using hx⟩
    · simp at hx
  · rintro ⟨j, hv, rfl⟩
    exact ⟨j, Finset.mem_univ j, by simp [Message.content, hv]⟩

/-- The invariant of one queue: `count` is the number of messages, these have a length that was
checked, and a queue that was never opened has none. -/
structure QueueInv (q : Msgqueue) : Prop where
  count : q.count = q.bag.card
  len : ∀ j, (q.msg j).valid = true → 1 ≤ (q.msg j).len ∧ (q.msg j).len ≤ 128
  unused : q.used = false → q.bag = 0

structure MsgInv (t : Msgq) : Prop where
  queue : ∀ i, QueueInv (t i)
  keys : ∀ i j, (t i).used = true → (t j).used = true → (t i).key = (t j).key → i = j

theorem put_msg (q : Msgqueue) (j k : SlotId) (m : Message) :
    (q.put j m).msg k = if k = j then m else q.msg k := by
  unfold Msgqueue.put
  exact update_apply q.msg j m k

theorem QueueInv.put_len (h : QueueInv q) {m : Message}
    (hm : m.valid = true → 1 ≤ m.len ∧ m.len ≤ 128) (k : SlotId)
    (hk : ((q.put j m).msg k).valid = true) :
    1 ≤ ((q.put j m).msg k).len ∧ ((q.put j m).msg k).len ≤ 128 := by
  rw [put_msg] at hk ⊢
  split at hk
  · next heq =>
    rw [if_pos heq]
    exact hm hk
  · next hne =>
    rw [if_neg hne]
    exact h.len k hk

theorem update_header (hused : q.used = (t i).used) (hkey : q.key = (t i).key) (k : QueueId) :
    (update t i q k).used = (t k).used ∧ (update t i q k).key = (t k).key := by
  by_cases hk : k = i
  · subst hk
    rw [update_self]
    exact ⟨hused, hkey⟩
  · rw [update_of_ne hk]
    exact ⟨rfl, rfl⟩

/-- A queue is replaced by one with the same key that is in use. -/
theorem MsgInv.update (h : MsgInv t) (hq : QueueInv q) (hused : q.used = (t i).used)
    (hkey : q.key = (t i).key) : MsgInv (update t i q) := by
  have hsame := update_header hused hkey
  constructor
  · intro k
    by_cases hk : k = i
    · subst hk
      rw [update_self]
      exact hq
    · rw [update_of_ne hk]
      exact h.queue k
  · intro k l hk hl hkl
    rw [(hsame k).1] at hk
    rw [(hsame l).1] at hl
    rw [(hsame k).2, (hsame l).2] at hkl
    exact h.keys k l hk hl hkl

theorem MsgInv.open (h : MsgInv t) {key : Int} (hnew : ∀ k, (t k).used = true → (t k).key ≠ key)
    (hu : (t i).used = false) :
    MsgInv (Function.update t i { t i with used := true, key := key, count := 0 }) := by
  constructor
  · intro k
    by_cases hk : k = i
    · subst hk
      rw [Function.update_self]
      have hempty := (h.queue k).unused hu
      refine ⟨?_, (h.queue k).len, nofun⟩
      change (0 : Int) = ((t k).bag.card : Int)
      rw [hempty]
      rfl
    · rw [Function.update_of_ne hk]
      exact h.queue k
  · intro k l hk hl hkl
    by_cases hki : k = i
    · by_cases hli : l = i
      · rw [hki, hli]
      · subst hki
        rw [Function.update_of_ne hli] at hl hkl
        rw [Function.update_self] at hkl
        exact absurd hkl.symm (hnew l hl)
    · rw [Function.update_of_ne hki] at hk hkl
      by_cases hli : l = i
      · subst hli
        rw [Function.update_self] at hkl
        exact absurd hkl (hnew k hk)
      · rw [Function.update_of_ne hli] at hl hkl
        exact h.keys k l hk hl hkl

theorem MsgInv.effect (h : MsgInv t) {c : Call} {o : Outcome} (he : Effect t c o) :
    MsgInv o.table := by
  cases he with
  | found | counted | failed => exact h
  | opened hnew hu => exact h.open hnew hu
  | @spoilt u quid type len i j m hi hj hm =>
    have hbag : ((t i).put j m).bag = (t i).bag := by
      rw [bag_fill hj, Message.content, if_neg (by simp [hm]), add_zero]
    refine h.update ⟨?_, (h.queue i).put_len (by simp [hm]), fun hu => ?_⟩ rfl rfl
    · rw [hbag]
      exact (h.queue i).count
    · rw [hbag]
      exact (h.queue i).unused hu
  | @stored u quid type len i j hi hj hlen hread hfull hgot =>
    have hfree := freeSlot_some hj
    refine h.update ⟨?_, (h.queue i).put_len fun _ => hlen, fun hu => ?_⟩ rfl rfl
    · change (t i).count + 1 = (((t i).put j _).bag.card : Int)
      rw [bag_fill hfree, Multiset.card_add, content_card, (h.queue i).count]
      simp [Message.store]
    · change (t i).used = false at hu
      rw [queueOf_used hi] at hu
      cases hu
  | @taken u quid type bufflen i j hi hj hroom =>
    obtain ⟨hv, -⟩ := slotOf_some hj
    refine h.update ⟨?_, (h.queue i).put_len nofun, fun hu => ?_⟩ rfl rfl
    · have hcard := congrArg Multiset.card
        (bag_put (t i) j { (t i).msg j with valid := false })
      rw [Multiset.card_add, Multiset.card_add, content_card, content_card, if_pos hv,
        if_neg (by simp)] at hcard
      change (t i).count - 1 = (((t i).put j _).bag.card : Int)
      rw [(h.queue i).count]
      omega
    · change (t i).used = false at hu
      rw [queueOf_used hi] at hu
      cases hu

theorem bag_init (t : Msgq) (i : QueueId) : (msginit t i).bag = 0 :=
  Finset.sum_eq_zero fun _ _ => rfl

theorem MsgInv.init (t : Msgq) : MsgInv (msginit t) := by
  constructor
  · intro i
    refine ⟨?_, nofun, fun _ => bag_init t i⟩
    rw [bag_init t i]
    rfl
  · intro i j hi
    cases hi

theorem Reach.inv (h : Reach t) : MsgInv t := by
  obtain ⟨t₀, hrun⟩ := h
  induction hrun with
  | refl => exact MsgInv.init t₀
  | tail _ hstep ih =>
    obtain ⟨c, rfl⟩ := hstep
    exact ih.effect (act_effect _ c)

end KernelMsg
