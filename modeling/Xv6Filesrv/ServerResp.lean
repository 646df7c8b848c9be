import Mathlib.Data.List.TakeWhile
import Xv6Filesrv.Arrivals
import Xv6Filesrv.Decimal

/-!
# Requests of the file server

`recv_exact`, `recv_crlf_line`, `parse_int` and `resp_read_array` of `src/resp.c`.  A reader gives
up where the source returns -1; `malloc` does not fail.
-/

namespace ServerResp

open Arrivals Decimal

abbrev Bytes := List UInt8

/-- The loop of `recv_exact` with `buf` received so far.  Every round uses up a planned arrival or
receives at least one byte, which bounds the number of rounds. -/
def recvLoop : Nat → Nat → Bytes → Reader UInt8 (Int × Bytes)
  | 0, _, buf => pure (-1, buf)
  | fuel + 1, n, buf =>
    if n ≤ buf.length then pure (buf.length, buf)
    else do
      match ← Reader.recv (n - buf.length) with
      | .eof => pure (0, buf)
      | .interrupted => recvLoop fuel n buf
      | .failed => pure (-1, buf)
      | .got l => recvLoop fuel n (buf ++ l)

/-- The result of `recv_exact` and what it leaves in the buffer. -/
def recvExact (n : Nat) : Reader UInt8 (Int × Bytes) := do
  let rounds ← Reader.planned
  recvLoop (rounds + n + 1) n []

/-- `recv_exact` with the test `<= 0` that its callers make. -/
def recvSome (n : Nat) : Reader UInt8 Bytes := do
  let (r, buf) ← recvExact n
  if r ≤ 0 then Reader.fail else pure buf

def recvByte : Reader UInt8 UInt8 := do
  let buf ← recvSome 1
  pure (buf.headD 0)

/-- The loop of `recv_crlf_line` with room for `n` more bytes. -/
def recvCrlfLine : Nat → Reader UInt8 Bytes
  | 0 => Reader.fail
  | n + 1 => do
    let c ← recvByte
    if c = 13 then
      let next ← recvByte
      if next ≠ 10 then Reader.fail else pure []
    else
      let line ← recvCrlfLine n
      pure (c :: line)

/-- The characters that `strtol` skips. -/
def isSpace (c : UInt8) : Bool := c == 32 || decide (9 ≤ c ∧ c ≤ 13)

/-- The sign that `strtol` accepts, and what follows it. -/
def sign : Bytes → Bool × Bytes
  | 45 :: s => (true, s)
  | 43 :: s => (false, s)
  | s => (false, s)

/-- `parse_int` of a buffer that holds `line` and a NUL: a complete decimal numeral that fits an
`int`. -/
def parseInt (line : Bytes) : Option Int :=
  let s := line.takeWhile (· ≠ 0)
  let (negative, digits) := sign (s.dropWhile isSpace)
  if digits.takeWhile isDigit = [] ∨ digits.dropWhile isDigit ≠ [] then none
  else
    let v : Int := value digits
    let v := if negative then -v else v
    if v < -2147483648 ∨ 2147483647 < v then none else some v

structure RespBuf where
  ptr : Bytes
  len : Nat
  deriving DecidableEq

structure RespArray where
  count : Int
  items : List RespBuf
  deriving DecidableEq

/-- One round of the loop of `resp_read_array`. -/
def readItem : Reader UInt8 RespBuf := do
  let kind ← recvByte
  if kind ≠ 36 then Reader.fail
  else
    let line ← recvCrlfLine 63
    match parseInt line with
    | none => Reader.fail
    | some blen =>
      if blen < 0 then Reader.fail
      else
        let data ← recvSome blen.toNat
        let crlf ← recvSome 2
        if crlf ≠ [13, 10] then Reader.fail else pure ⟨data ++ [0], blen.toNat⟩

/-- The loop of `resp_read_array` with `n` items to go. -/
def readItems : Nat → Reader UInt8 (List RespBuf)
  | 0 => pure []
  | n + 1 => do
    let item ← readItem
    let items ← readItems n
    pure (item :: items)

def respReadArray : Reader UInt8 RespArray := do
  let lead ← recvByte
  if lead ≠ 42 then Reader.fail
  else
    let line ← recvCrlfLine 63
    match parseInt line with
    | none => Reader.fail
    | some nitems =>
      if nitems ≤ 0 ∨ 128 < nitems then Reader.fail
      else
        let items ← readItems nitems.toNat
        pure ⟨nitems, items⟩

/-- The loop receives what is still missing, however it arrives. -/
theorem recvLoop_gets (fuel n : Nat) (buf bs rest : Bytes) (plan : List Arrival)
    (hn : buf.length + bs.length = n) (hfuel : plan.length + bs.length < fuel)
    (hplan : Clean plan) :
    ∃ plan', Clean plan' ∧
      recvLoop fuel n buf ⟨bs ++ rest, plan⟩ = (some ((n : Int), buf ++ bs), ⟨rest, plan'⟩) := by
  induction fuel generalizing buf bs plan with
  | zero => omega
  | succ fuel ih =>
    by_cases hbs : bs = []
    · subst hbs
      have hlen : buf.length = n := by simpa using hn
      refine ⟨plan, hplan, ?_⟩
      rw [recvLoop, if_pos (by omega), hlen]
      simp [Reader.pure_apply]
    · have hpos : 0 < bs.length := List.length_pos_of_ne_nil hbs
      have hdata : bs ++ rest ≠ [] := by simp [hbs]
      rw [recvLoop, if_neg (by omega)]
      rcases Source.recv_clean (s := ⟨bs ++ rest, plan⟩) hplan (show 0 < n - buf.length by omega)
        hdata with ⟨plan', hclean, hless, hrecv⟩ | ⟨m, plan', hm, hmn, hclean, hle, hrecv⟩
      · obtain ⟨plan₂, hclean₂, hloop⟩ := ih buf bs plan' hn (by simp only at hless; omega) hclean
        refine ⟨plan₂, hclean₂, ?_⟩
        rw [Reader.bind_some (show Reader.recv (n - buf.length) ⟨bs ++ rest, plan⟩ =
          (some .interrupted, ⟨bs ++ rest, plan'⟩) by rw [Reader.recv, hrecv])]
        exact hloop
      · have htake : (bs ++ rest).take m = bs.take m := List.take_append_of_le_length (by omega)
        have hdrop : (bs ++ rest).drop m = bs.drop m ++ rest :=
          List.drop_append_of_le_length (by omega)
        have hsum : (buf ++ bs.take m).length + (bs.drop m).length = n := by
          simp only [List.length_append, List.length_take, List.length_drop]
          omega
        have hfuel' : plan'.length + (bs.drop m).length < fuel := by
          simp only at hle
          rw [List.length_drop]
          omega
        obtain ⟨plan₂, hclean₂, hloop⟩ := ih _ _ plan' hsum hfuel' hclean
        refine ⟨plan₂, hclean₂, ?_⟩
        rw [Reader.bind_some (show Reader.recv (n - buf.length) ⟨bs ++ rest, plan⟩ =
          (some (.got (bs.take m)), ⟨bs.drop m ++ rest, plan'⟩) by
            rw [Reader.recv, hrecv, htake, hdrop])]
        simp only [hloop, List.append_assoc, List.take_append_drop]

theorem recvExact_gets (bs : Bytes) : Gets (recvExact bs.length) bs (bs.length, bs) := by
  intro rest plan hplan
  have hloop := recvLoop_gets (plan.length + bs.length + 1) bs.length [] bs rest plan (by simp)
    (by omega) hplan
  exact hloop

theorem recvSome_gets {n : Nat} {bs : Bytes} (hn : bs.length = n) (hbs : bs ≠ []) :
    Gets (recvSome n) bs bs := by
  subst hn
  have hpos : 0 < bs.length := List.length_pos_of_ne_nil hbs
  have hget := (recvExact_gets bs).bind (f := fun x : Int × Bytes =>
    if x.1 ≤ 0 then Reader.fail else pure x.2) (b := bs) (by
      rw [if_neg (by simp only; omega)]
      exact .pure bs)
  rw [List.append_nil] at hget
  exact hget

/-- Nothing was asked for, and the result is the one that stands for the end of the stream. -/
theorem recvSome_zero : Fails (recvSome 0) [] := by
  have hfail := (recvExact_gets []).bind_fails (f := fun x : Int × Bytes =>
    if x.1 ≤ 0 then Reader.fail else pure x.2) Fails.fail
  exact hfail

theorem recvByte_gets (c : UInt8) : Gets recvByte [c] c := by
  have hone : Gets (recvSome 1) [c] [c] := recvSome_gets rfl (by simp)
  exact hone.bind (f := fun buf => pure (buf.headD 0)) (.pure c)

/-- A line without CR that fits the buffer. -/
theorem recvCrlfLine_gets (n : Nat) (line : Bytes) (hlen : line.length < n) (hcr : 13 ∉ line) :
    Gets (recvCrlfLine n) (line ++ [13, 10]) line := by
  induction n generalizing line with
  | zero => omega
  | succ n ih =>
    cases line with
    | nil =>
      have hend : Gets (do
          let next ← recvByte
          if next ≠ 10 then Reader.fail else pure []) [10] ([] : Bytes) :=
        (recvByte_gets 10).bind (.pure [])
      exact (recvByte_gets 13).bind hend
    | cons c line =>
      rw [List.mem_cons, not_or] at hcr
      have hrest := ih line (by simpa using hlen) hcr.2
      have hcons : Gets (do
          let l ← recvCrlfLine n
          pure (c :: l)) (line ++ [13, 10]) (c :: line) := by
        have h := hrest.bind (f := fun l => pure (c :: l)) (.pure (c :: line))
        rw [List.append_nil] at h
        exact h
      refine (recvByte_gets c).bind ?_
      rw [if_neg (Ne.symm hcr.1)]
      exact hcons

theorem sign_digits {s : Bytes} (h : ∀ c ∈ s, isDigit c = true) : sign s = (false, s) := by
  unfold sign
  split
  · next rest => exact absurd (h 45 List.mem_cons_self) (by decide)
  · next rest => exact absurd (h 43 List.mem_cons_self) (by decide)
  · rfl

theorem isSpace_digit {c : UInt8} (h : isDigit c = true) : isSpace c = false := by
  rw [isDigit_iff] at h
  have hne : c ≠ 32 := by
    intro he
    rw [he] at h
    exact absurd h (by decide)
  simp only [isSpace, beq_eq_false_iff_ne.mpr hne, Bool.false_or, decide_eq_false_iff_not,
    UInt8.le_iff_toNat_le]
  intro hc
  have h13 : c.toNat ≤ 13 := hc.2
  omega

/-- `strtol` reads back what was printed. -/
theorem parseInt_numeral {n : Nat} (h : n ≤ 2147483647) : parseInt (numeral n) = some (n : Int) := by
  have hd := numeral_digits n
  have htake : (numeral n).takeWhile (· ≠ 0) = numeral n := by
    rw [List.takeWhile_eq_self_iff]
    intro c hc
    have h0 := hd c hc
    simp only [ne_eq, decide_not, Bool.not_eq_true', decide_eq_false_iff_not]
    rintro rfl
    exact absurd h0 (by decide)
  have hspace : (numeral n).dropWhile isSpace = numeral n := by
    rw [List.dropWhile_eq_self_iff]
    intro hl
    rw [isSpace_digit (hd _ (List.getElem_mem hl))]
    simp
  have hall : (numeral n).takeWhile isDigit = numeral n := List.takeWhile_eq_self_iff.mpr hd
  have hrest : (numeral n).dropWhile isDigit = [] := List.dropWhile_eq_nil_iff.mpr hd
  have hne := numeral_ne_nil n
  simp only [parseInt, htake, hspace, sign_digits hd, hall, hrest, value_numeral,
    Bool.false_eq_true, if_false]
  rw [if_neg (by simp [hne]), if_neg (by omega)]

/-- The header line of a length or count that fits an `int`. -/
theorem header_gets {n : Nat} (h : n ≤ 2147483647) :
    Gets (recvCrlfLine 63) (numeral n ++ [13, 10]) (numeral n) := by
  apply recvCrlfLine_gets
  · have hlen := numeral_length_le 9 n (by omega)
    omega
  · intro hcr
    exact absurd (numeral_digits n 13 hcr) (by decide)

def encodeItem (b : Bytes) : Bytes := [36] ++ ((numeral b.length ++ [13, 10]) ++ (b ++ [13, 10]))

/-- The standard encoding of a request. -/
def encodeRequest (r : List Bytes) : Bytes :=
  [42] ++ ((numeral r.length ++ [13, 10]) ++ r.flatMap encodeItem)

/-- What is stored for an item: its bytes, a NUL, and its length. -/
def itemOf (b : Bytes) : RespBuf := ⟨b ++ [0], b.length⟩

theorem crlf_gets (item : RespBuf) : Gets (do
    let crlf ← recvSome 2
    if crlf ≠ [13, 10] then Reader.fail else pure item) [13, 10] item := by
  have htwo : Gets (recvSome 2) [13, 10] [13, 10] := recvSome_gets rfl (by simp)
  exact htwo.bind (.pure item)

theorem readItem_gets {b : Bytes} (hlen : b.length ≤ 2147483647) (hb : b ≠ []) :
    Gets readItem (encodeItem b) (itemOf b) := by
  refine (recvByte_gets 36).bind ?_
  rw [if_neg (by simp)]
  refine (header_gets hlen).bind ?_
  rw [parseInt_numeral hlen]
  simp only [Int.toNat_natCast]
  rw [if_neg (by omega)]
  exact (recvSome_gets rfl hb).bind (crlf_gets (itemOf b))

/-- The length of an empty item is taken for the end of the stream. -/
theorem readItem_empty : Fails readItem (encodeItem []) := by
  refine (recvByte_gets 36).bind_fails ?_
  rw [if_neg (by simp)]
  refine (header_gets (by simp)).bind_fails ?_
  rw [parseInt_numeral (by simp)]
  exact (recvSome_zero.bind _).append _

theorem readItems_gets (items : List Bytes) (hlen : ∀ b ∈ items, b.length ≤ 2147483647)
    (hne : ∀ b ∈ items, b ≠ []) :
    Gets (readItems items.length) (items.flatMap encodeItem) (items.map itemOf) := by
  induction items with
  | nil => exact .pure []
  | cons b items ih =>
    rw [List.forall_mem_cons] at hlen hne
    have hrest := (ih hlen.2 hne.2).bind (f := fun l => pure (itemOf b :: l)) (.pure _)
    rw [List.append_nil] at hrest
    exact (readItem_gets hlen.1 hne.1).bind hrest

theorem readItems_fails (items : List Bytes) (hlen : ∀ b ∈ items, b.length ≤ 2147483647)
    (hempty : [] ∈ items) : Fails (readItems items.length) (items.flatMap encodeItem) := by
  induction items with
  | nil => cases hempty
  | cons b items ih =>
    rw [List.forall_mem_cons] at hlen
    by_cases hb : b = []
    · subst hb
      exact (readItem_empty.bind _).append _
    · have hmem : [] ∈ items := by
        cases hempty with
        | head => exact absurd rfl hb
        | tail _ h => exact h
      exact (readItem_gets hlen.1 hb).bind_fails ((ih hlen.2 hmem).bind _)

/-- A request that the parser has room for: 1 to 128 items that an `int` can count. -/
structure Request (r : List Bytes) : Prop where
  nonempty : 1 ≤ r.length
  short : r.length ≤ 128
  fits : ∀ b ∈ r, b.length ≤ 2147483647

def arrayOf (r : List Bytes) : RespArray := ⟨r.length, r.map itemOf⟩

/-- After the lead byte and the count. -/
theorem count_gets {r : List Bytes} (hr : Request r) {bs : Bytes} {a : RespArray}
    (h : Gets (do
      let items ← readItems r.length
      pure ⟨r.length, items⟩) bs a) :
    Gets respReadArray ([42] ++ ((numeral r.length ++ [13, 10]) ++ bs)) a := by
  have hshort := hr.short
  have hpos := hr.nonempty
  refine (recvByte_gets 42).bind ?_
  rw [if_neg (by simp)]
  refine (header_gets (by omega)).bind ?_
  rw [parseInt_numeral (by omega)]
  simp only [Int.toNat_natCast]
  rw [if_neg (by omega)]
  exact h

theorem count_fails {r : List Bytes} (hr : Request r) {bs : Bytes}
    (h : Fails (readItems r.length) bs) :
    Fails respReadArray ([42] ++ ((numeral r.length ++ [13, 10]) ++ bs)) := by
  have hshort := hr.short
  have hpos := hr.nonempty
  refine (recvByte_gets 42).bind_fails ?_
  rw [if_neg (by simp)]
  refine (header_gets (by omega)).bind_fails ?_
  rw [parseInt_numeral (by omega)]
  simp only [Int.toNat_natCast]
  rw [if_neg (by omega)]
  exact h.bind _

theorem respReadArray_gets {r : List Bytes} (hr : Request r) (hne : ∀ b ∈ r, b ≠ []) :
    Gets respReadArray (encodeRequest r) (arrayOf r) := by
  apply count_gets hr
  have hitems := (readItems_gets r hr.fits hne).bind
    (f := fun items => pure (⟨r.length, items⟩ : RespArray)) (.pure _)
  rw [List.append_nil] at hitems
  exact hitems

theorem respReadArray_fails {r : List Bytes} (hr : Request r) (hempty : [] ∈ r) :
    Fails respReadArray (encodeRequest r) :=
  count_fails hr (readItems_fails r hr.fits hempty)

/-! ## What reading takes off the stream -/

theorem recvLoop_consumes (fuel n : Nat) (buf : Bytes) (h : buf.length ≤ n) :
    Consumes (recvLoop fuel n buf) fun bs x =>
      x.2 = buf ++ bs ∧ (0 < x.1 → x.2.length = n) := by
  induction fuel generalizing buf with
  | zero => exact Consumes.pure ⟨(List.append_nil buf).symm, nofun⟩
  | succ fuel ih =>
    rw [recvLoop]
    split
    · next hn => exact Consumes.pure ⟨(List.append_nil buf).symm, fun _ => Nat.le_antisymm h hn⟩
    · apply (Consumes.recv _).bind
      rintro _ r ⟨rfl, hr⟩
      cases r with
      | eof | failed => exact Consumes.pure ⟨(List.append_nil buf).symm, nofun⟩
      | interrupted => exact ih buf h
      | got l =>
        have hl : l.length ≤ n - buf.length := hr
        refine (ih (buf ++ l) (by rw [List.length_append]; omega)).mono ?_
        rintro bs x ⟨hx, hfull⟩
        exact ⟨by rw [hx, List.append_assoc]; rfl, hfull⟩

theorem recvSome_consumes (n : Nat) :
    Consumes (recvSome n) fun bs buf => buf = bs ∧ bs.length = n := by
  have hexact : Consumes (recvExact n) fun bs x => x.2 = bs ∧ (0 < x.1 → x.2.length = n) := by
    apply Consumes.planned.bind
    rintro _ rounds rfl
    exact recvLoop_consumes _ n [] (Nat.zero_le n)
  apply hexact.bind
  rintro bs ⟨r, buf⟩ ⟨rfl, hfull⟩
  simp only
  split
  · exact Consumes.fail
  · next hr =>
    rw [not_le] at hr
    refine Consumes.pure ?_
    rw [List.append_nil]
    exact ⟨rfl, hfull hr⟩

theorem recvByte_consumes : Consumes recvByte fun bs c => bs = [c] := by
  apply (recvSome_consumes 1).bind
  rintro bs _ ⟨rfl, hlen⟩
  obtain ⟨c, rfl⟩ := List.length_eq_one_iff.mp hlen
  exact Consumes.pure rfl

theorem recvCrlfLine_consumes (n : Nat) : Consumes (recvCrlfLine n) fun bs line =>
    bs = line ++ [13, 10] ∧ line.length < n ∧ 13 ∉ line := by
  induction n with
  | zero => exact Consumes.fail
  | succ n ih =>
    apply recvByte_consumes.bind
    rintro _ c rfl
    by_cases hc : c = 13
    · rw [if_pos hc]
      apply recvByte_consumes.bind
      rintro _ next rfl
      by_cases hnext : next = 10
      · rw [if_neg (not_not_intro hnext), hc, hnext]
        exact Consumes.pure ⟨rfl, Nat.succ_pos n, List.not_mem_nil⟩
      · rw [if_pos hnext]
        exact Consumes.fail
    · rw [if_neg hc]
      apply ih.bind
      rintro _ line ⟨rfl, hlen, hcr⟩
      refine Consumes.pure ⟨by simp, Nat.succ_lt_succ hlen, ?_⟩
      rw [List.mem_cons, not_or]
      exact ⟨Ne.symm hc, hcr⟩

/-- A complete base-10 numeral of `strtol` and the number that it denotes. -/
def Denotes (text : Bytes) (v : Int) : Prop :=
  ∃ spaces signs digits, text = spaces ++ (signs ++ digits) ∧ (∀ c ∈ spaces, isSpace c = true) ∧
    digits ≠ [] ∧ (∀ c ∈ digits, isDigit c = true) ∧
    ((signs = [] ∨ signs = [43]) ∧ v = value digits ∨ signs = [45] ∧ v = -(value digits : Int))

theorem sign_split (s : Bytes) : ∃ signs, s = signs ++ (sign s).2 ∧
    ((signs = [] ∨ signs = [43]) ∧ (sign s).1 = false ∨ signs = [45] ∧ (sign s).1 = true) := by
  unfold sign
  split
  · exact ⟨[45], rfl, .inr ⟨rfl, rfl⟩⟩
  · exact ⟨[43], rfl, .inl ⟨.inr rfl, rfl⟩⟩
  · exact ⟨[], rfl, .inl ⟨.inl rfl, rfl⟩⟩

/-- What `parse_int` accepts. -/
theorem parseInt_denotes {line : Bytes} {v : Int} (h : parseInt line = some v) :
    Denotes (line.takeWhile (· ≠ 0)) v ∧ v ≤ 2147483647 := by
  obtain ⟨signs, hsplit, hsign⟩ := sign_split ((line.takeWhile (· ≠ 0)).dropWhile isSpace)
  simp only [parseInt] at h
  generalize sign ((line.takeWhile (· ≠ 0)).dropWhile isSpace) = x at h hsplit hsign
  obtain ⟨negative, digits⟩ := x
  simp only at h hsplit hsign
  generalize hw : (if negative = true then -(value digits : Int) else value digits) = w at h
  split at h
  · cases h
  · next hdigits =>
    obtain ⟨hsome, hrest⟩ := not_or.mp hdigits
    rw [not_not, List.dropWhile_eq_nil_iff] at hrest
    split at h
    · cases h
    · next hrange =>
      cases h
      refine ⟨⟨(line.takeWhile (· ≠ 0)).takeWhile isSpace, signs, digits, ?_,
        fun c hc => List.mem_takeWhile_imp hc, ?_, hrest, ?_⟩, by omega⟩
      · rw [← hsplit, List.takeWhile_append_dropWhile]
      · rintro rfl
        exact hsome rfl
      · rcases hsign with ⟨hplus, rfl⟩ | ⟨hminus, rfl⟩
        · exact .inl ⟨hplus, hw.symm⟩
        · exact .inr ⟨hminus, hw.symm⟩

/-- The line of a count or a length: at most 62 bytes without CR, and what is in front of a NUL is
a numeral. -/
structure Header (line : Bytes) (v : Int) : Prop where
  short : line.length ≤ 62
  noCr : 13 ∉ line
  denotes : Denotes (line.takeWhile (· ≠ 0)) v

/-- The bytes of one item, and what is stored for it. -/
def ItemForm (bs : Bytes) (item : RespBuf) : Prop :=
  ∃ line b, bs = [36] ++ (line ++ [13, 10]) ++ (b ++ [13, 10]) ∧ Header line b.length ∧
    b.length ≤ 2147483647 ∧ item = itemOf b

/-- The bytes of a request, and what is stored for it. -/
def RequestForm (bs : Bytes) (a : RespArray) : Prop :=
  ∃ line parts, bs = [42] ++ (line ++ [13, 10]) ++ parts.flatten ∧ Header line a.count ∧
    1 ≤ a.count ∧ a.count ≤ 128 ∧ a.items.length = a.count ∧ List.Forall₂ ItemForm parts a.items

/-- A header line, with the test that follows it. -/
theorem header_consumes {α : Type} {f : Int → Reader UInt8 α} {Q : Bytes → α → Prop}
    (hf : ∀ line v, Header line v → v ≤ 2147483647 →
      Consumes (f v) fun cs => Q (line ++ [13, 10] ++ cs)) :
    Consumes (do
      let line ← recvCrlfLine 63
      match parseInt line with
      | none => Reader.fail
      | some v => f v) Q := by
  apply (recvCrlfLine_consumes 63).bind
  rintro _ line ⟨rfl, hlen, hcr⟩
  cases hv : parseInt line with
  | none => exact Consumes.fail
  | some v =>
    obtain ⟨hdenotes, hle⟩ := parseInt_denotes hv
    exact hf line v ⟨by omega, hcr, hdenotes⟩ hle

theorem readItem_consumes : Consumes readItem ItemForm := by
  apply recvByte_consumes.bind
  rintro _ kind rfl
  by_cases hkind : kind = 36
  · rw [if_neg (not_not_intro hkind), hkind]
    apply header_consumes
    intro line blen hline hle
    by_cases hneg : blen < 0
    · rw [if_pos hneg]
      exact Consumes.fail
    · rw [if_neg hneg]
      apply (recvSome_consumes _).bind
      rintro _ b ⟨rfl, hb⟩
      apply (recvSome_consumes _).bind
      rintro _ crlf ⟨rfl, -⟩
      by_cases hcrlf : crlf = [13, 10]
      · have hlen : (b.length : Int) = blen := by omega
        rw [if_neg (not_not_intro hcrlf), hcrlf]
        refine Consumes.pure ⟨line, b, by simp, hlen ▸ hline, by omega, ?_⟩
        rw [itemOf, hb]
      · rw [if_pos hcrlf]
        exact Consumes.fail
  · rw [if_pos hkind]
    exact Consumes.fail

theorem readItems_consumes (n : Nat) : Consumes (readItems n) fun bs items =>
    ∃ parts : List Bytes, bs = parts.flatten ∧ items.length = n ∧
      List.Forall₂ ItemForm parts items := by
  induction n with
  | zero => exact Consumes.pure ⟨[], rfl, rfl, .nil⟩
  | succ n ih =>
    apply readItem_consumes.bind
    intro part item hitem
    apply ih.bind
    rintro _ items ⟨parts, rfl, hlen, hparts⟩
    refine Consumes.pure ⟨part :: parts, by simp, by simp [hlen], .cons hitem hparts⟩

theorem respReadArray_consumes : Consumes respReadArray RequestForm := by
  apply recvByte_consumes.bind
  rintro _ lead rfl
  by_cases hlead : lead = 42
  · rw [if_neg (not_not_intro hlead), hlead]
    apply header_consumes
    intro line nitems hline hle
    by_cases hcount : nitems ≤ 0 ∨ 128 < nitems
    · rw [if_pos hcount]
      exact Consumes.fail
    · rw [if_neg hcount]
      apply (readItems_consumes _).bind
      rintro _ items ⟨parts, rfl, hlen, hparts⟩
      refine Consumes.pure ⟨line, parts, by simp, hline, ?_, ?_, ?_, hparts⟩
      · simp only
        omega
      · simp only
        omega
      · simp only [hlen]
        omega
  · rw [if_pos hlead]
    exact Consumes.fail

/-- A request takes something off the stream, and its items are not too long. -/
theorem respReadArray_takes :
    Takes respReadArray fun k a => 0 < k ∧ ∀ item ∈ a.items, item.len ≤ 2147483647 := by
  apply respReadArray_consumes.takes
  rintro _ a ⟨line, parts, rfl, -, -, -, -, hparts⟩
  refine ⟨by simp, ?_⟩
  generalize a.items = items at hparts
  induction hparts with
  | nil => exact List.forall_mem_nil _
  | cons hitem _ ih =>
    obtain ⟨_, b, -, -, hb, rfl⟩ := hitem
    exact List.forall_mem_cons.mpr ⟨hb, ih⟩

/-- What `resp_read_array` returns was sent in the form of a request, and a stream that does not
begin with one is refused, however it arrives. -/
theorem requests_have_form (s : Source UInt8) :
    (∀ a s', respReadArray s = (some a, s') →
      ∃ bs, s.data = bs ++ s'.data ∧ RequestForm bs a) ∧
    ((∀ bs a, bs <+: s.data → ¬ RequestForm bs a) → (respReadArray s).1 = none) := by
  refine ⟨respReadArray_consumes s, fun hno => ?_⟩
  cases hread : respReadArray s with
  | mk out s' =>
    cases out with
    | none => rfl
    | some a =>
      obtain ⟨bs, hbs, hform⟩ := respReadArray_consumes s a s' hread
      exact absurd hform (hno bs a ⟨s'.data, hbs.symm⟩)

/-- Spaces and a sign in front of the count, and anything behind a NUL, are taken. -/
example : (respReadArray ⟨[42, 32, 43, 49, 0, 120, 13, 10, 36, 49, 13, 10, 97, 13, 10],
    [.part 0, .interrupted]⟩).1 = some ⟨1, [itemOf [97]]⟩ := by decide

/-- Successive calls of `resp_read_array` yield the requests in order, each consuming exactly the
bytes of its request, and leave `rest`. -/
def Yields (rest : Bytes) : List (List Bytes) → Source UInt8 → Prop
  | [], s => s.data = rest
  | r :: rs, s => ∃ plan,
    respReadArray s = (some (arrayOf r), ⟨rs.flatMap encodeRequest ++ rest, plan⟩) ∧
      Yields rest rs ⟨rs.flatMap encodeRequest ++ rest, plan⟩

theorem yields_of_nonempty (rest : Bytes) (rs : List (List Bytes)) (hrs : ∀ r ∈ rs, Request r)
    (hne : ∀ r ∈ rs, ∀ b ∈ r, b ≠ []) (plan : List Arrival) (hplan : Clean plan) :
    Yields rest rs ⟨rs.flatMap encodeRequest ++ rest, plan⟩ := by
  induction rs generalizing plan with
  | nil => rfl
  | cons r rs ih =>
    rw [List.forall_mem_cons] at hrs hne
    obtain ⟨plan', hplan', hread⟩ :=
      respReadArray_gets hrs.1 hne.1 (rs.flatMap encodeRequest ++ rest) plan hplan
    refine ⟨plan', ?_, ih hrs.2 hne.2 plan' hplan'⟩
    rw [List.flatMap_cons, List.append_assoc]
    exact hread

theorem nonempty_of_yields (rest : Bytes) (rs : List (List Bytes)) (hrs : ∀ r ∈ rs, Request r)
    (plan : List Arrival) (hplan : Clean plan)
    (h : Yields rest rs ⟨rs.flatMap encodeRequest ++ rest, plan⟩) :
    ∀ r ∈ rs, ∀ b ∈ r, b ≠ [] := by
  induction rs generalizing plan with
  | nil => nofun
  | cons r rs ih =>
    rw [List.forall_mem_cons] at hrs ⊢
    obtain ⟨plan₁, hread, hrest⟩ := h
    rw [List.flatMap_cons, List.append_assoc] at hread
    have hne : ∀ b ∈ r, b ≠ [] := by
      intro b hb he
      have hfail := respReadArray_fails hrs.1 (he ▸ hb) (rs.flatMap encodeRequest ++ rest) plan hplan
      rw [hread] at hfail
      cases hfail
    -- the plan that is left over is the one that the successful read leaves
    obtain ⟨plan₂, hplan₂, hread₂⟩ :=
      respReadArray_gets hrs.1 hne (rs.flatMap encodeRequest ++ rest) plan hplan
    rw [hread, Prod.mk.injEq, Source.mk.injEq] at hread₂
    exact ⟨hne, ih hrs.2 plan₁ (hread₂.2.2 ▸ hplan₂) hrest⟩

/-- Requests sent back to back are read back as they were, however they arrive, if and only if
none of their items is empty. -/
theorem requests_round_trip_iff (rs : List (List Bytes)) (hrs : ∀ r ∈ rs, Request r) :
    (∀ rest plan, Clean plan → Yields rest rs ⟨rs.flatMap encodeRequest ++ rest, plan⟩) ↔
      ∀ r ∈ rs, ∀ b ∈ r, b ≠ [] := by
  constructor
  · intro h
    exact nonempty_of_yields [] rs hrs [] nofun (h [] [] nofun)
  · intro hne rest plan hplan
    exact yields_of_nonempty rest rs hrs hne plan hplan

def getfileTwice : List (List Bytes) :=
  [[[71, 69, 84, 70, 73, 76, 69], [97]], [[71, 69, 84, 70, 73, 76, 69], [97]]]

/-- `GETFILE a`, sent twice. -/
theorem requests_round_trip_getfile :
    (∀ r ∈ getfileTwice, Request r) ∧ ∀ rest plan, Clean plan →
      Yields rest getfileTwice ⟨getfileTwice.flatMap encodeRequest ++ rest, plan⟩ := by
  have hreq : ∀ r ∈ getfileTwice, Request r := by
    intro r hr
    have hr : r = [[71, 69, 84, 70, 73, 76, 69], [97]] := by simpa [getfileTwice] using hr
    subst hr
    exact ⟨by decide, by decide, by decide⟩
  exact ⟨hreq, (requests_round_trip_iff getfileTwice hreq).mpr (by decide)⟩

/-- `SETFILE a` with an empty content. -/
def setEmptyFile : List Bytes := [[83, 69, 84, 70, 73, 76, 69], [97], []]

theorem setEmptyFile_not_read :
    Request setEmptyFile ∧
      ¬ Yields [] [setEmptyFile] ⟨[setEmptyFile].flatMap encodeRequest ++ [], []⟩ := by
  have hreq : Request setEmptyFile := ⟨by decide, by decide, by decide⟩
  refine ⟨hreq, fun h => ?_⟩
  have hne := nonempty_of_yields [] [setEmptyFile] (List.forall_mem_singleton.mpr hreq) [] nofun h
  exact absurd hne (by decide)

end ServerResp
