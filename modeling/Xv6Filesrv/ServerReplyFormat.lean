import Xv6Filesrv.ServerOps

/-!
# Replies

The replies of the RESP protocol, as the server writes them and as a client reads them.
-/

namespace ServerReplyFormat

open ServerResp ServerOps Decimal

inductive Reply where
  | simple (msg : Bytes)
  | error (msg : Bytes)
  | integer (v : Int)
  | bulk (data : Bytes)
  | nullBulk
  deriving DecidableEq

def Reply.encode : Reply → Bytes
  | .simple msg => 43 :: (msg ++ crlf)
  | .error msg => 45 :: (msg ++ crlf)
  | .integer v => 58 :: (signed v ++ crlf)
  | .bulk data => 36 :: (numeral data.length ++ crlf ++ (data ++ crlf))
  | .nullBulk => 36 :: ([45, 49] ++ crlf)

/-- Text of one line. -/
def OneLine (text : Bytes) : Prop := 13 ∉ text ∧ 10 ∉ text

instance (text : Bytes) : Decidable (OneLine text) := inferInstanceAs (Decidable (_ ∧ _))

def Reply.WellFormed : Reply → Prop
  | .simple msg | .error msg => OneLine msg
  | _ => True

/-! ## Reading replies -/

/-- What stands before the first CRLF, and what stands behind it. -/
def takeLine : Bytes → Option (Bytes × Bytes)
  | [] => none
  | [_] => none
  | c :: d :: s =>
    if c = 13 then if d = 10 then some ([], s) else none
    else if c = 10 then none
    else (takeLine (d :: s)).map fun (line, rest) => (c :: line, rest)

def number (line : Bytes) : Option Int :=
  let (negative, digits) := sign line
  if digits = [] ∨ ¬ digits.all isDigit then none
  else some (if negative then -(value digits : Int) else value digits)

/-- Data of a known length, with a CRLF behind it. -/
def takeData (n : Nat) (s : Bytes) : Option (Bytes × Bytes) :=
  if n ≤ s.length ∧ (s.drop n).take 2 = crlf then some (s.take n, s.drop (n + 2)) else none

/-- Read one reply off a stream. -/
def decode : Bytes → Option (Reply × Bytes)
  | [] => none
  | kind :: s =>
    match takeLine s with
    | none => none
    | some (line, rest) =>
      if kind = 43 then some (.simple line, rest)
      else if kind = 45 then some (.error line, rest)
      else
        match number line with
        | none => none
        | some n =>
          if kind = 58 then some (.integer n, rest)
          else if kind = 36 then
            if n = -1 then some (.nullBulk, rest)
            else if n < 0 then none
            else (takeData n.toNat rest).map fun (data, rest) => (.bulk data, rest)
          else none

/-- Read a stream of at most so many replies to its end. -/
def decodeAll : Nat → Bytes → Option (List Reply)
  | _, [] => some []
  | 0, _ :: _ => none
  | n + 1, c :: s =>
    match decode (c :: s) with
    | none => none
    | some (reply, rest) => (decodeAll n rest).map (reply :: ·)

theorem takeLine_crlf {line : Bytes} (h : OneLine line) (rest : Bytes) :
    takeLine (line ++ (crlf ++ rest)) = some (line, rest) := by
  induction line with
  | nil => rfl
  | cons c line ih =>
    obtain ⟨hcr, hlf⟩ := h
    rw [List.mem_cons, not_or] at hcr hlf
    have hrest := ih ⟨hcr.2, hlf.2⟩
    cases hline : line ++ (crlf ++ rest) with
    | nil => simp [crlf] at hline
    | cons d s =>
      rw [hline] at hrest
      rw [List.cons_append, hline, takeLine, if_neg (Ne.symm hcr.1), if_neg (Ne.symm hlf.1), hrest]
      rfl

theorem oneLine_of_digits {s : Bytes} (h : ∀ c ∈ s, isDigit c = true) : OneLine s := by
  constructor
  · intro hmem
    exact absurd (h 13 hmem) (by decide)
  · intro hmem
    exact absurd (h 10 hmem) (by decide)

theorem number_numeral (n : Nat) : number (numeral n) = some (n : Int) := by
  have hd := numeral_digits n
  unfold number
  rw [sign_digits hd]
  simp only
  rw [if_neg, value_numeral]
  · rfl
  · rintro (hnil | hnot)
    · exact numeral_ne_nil n hnil
    · exact hnot (List.all_eq_true.mpr hd)

theorem number_signed (v : Int) : number (signed v) = some v := by
  unfold signed
  split
  · next hneg =>
    have hd := numeral_digits v.natAbs
    simp only [number, sign]
    rw [if_neg, value_numeral]
    · simp only [if_true]
      congr 1
      omega
    · rintro (hnil | hnot)
      · exact numeral_ne_nil _ hnil
      · exact hnot (List.all_eq_true.mpr hd)
  · next hpos =>
    rw [number_numeral]
    congr 1
    omega

theorem oneLine_signed (v : Int) : OneLine (signed v) := by
  have hd := oneLine_of_digits (numeral_digits v.natAbs)
  unfold signed
  split
  · constructor
    · rw [List.mem_cons, not_or]
      exact ⟨by decide, hd.1⟩
    · rw [List.mem_cons, not_or]
      exact ⟨by decide, hd.2⟩
  · exact hd

theorem takeData_crlf (data rest : Bytes) :
    takeData data.length (data ++ (crlf ++ rest)) = some (data, rest) := by
  unfold takeData
  rw [if_pos]
  · congr 2
    · exact List.take_left
    · have hlen : data.length + 2 = (data ++ crlf).length := by simp [crlf]
      rw [← List.append_assoc, hlen, List.drop_left]
  · constructor
    · simp
    · rw [List.drop_left]
      rfl

/-- A reply is read back, and nothing that follows it is touched. -/
theorem decode_encode {r : Reply} (h : r.WellFormed) (rest : Bytes) :
    decode (r.encode ++ rest) = some (r, rest) := by
  cases r with
  | simple msg =>
    rw [Reply.encode, List.cons_append, List.append_assoc, decode, takeLine_crlf h]
    rfl
  | error msg =>
    rw [Reply.encode, List.cons_append, List.append_assoc, decode, takeLine_crlf h]
    rfl
  | integer v =>
    rw [Reply.encode, List.cons_append, List.append_assoc, decode,
      takeLine_crlf (oneLine_signed v)]
    simp only [number_signed]
    rfl
  | bulk data =>
    rw [Reply.encode, List.cons_append, List.append_assoc, List.append_assoc, decode,
      takeLine_crlf (oneLine_of_digits (numeral_digits _))]
    simp only [number_numeral]
    rw [if_neg (by decide), if_neg (by decide), if_neg (by decide), if_pos trivial, if_neg (by omega),
      if_neg (by omega), Int.toNat_natCast, List.append_assoc, takeData_crlf]
    rfl
  | nullBulk => rfl

theorem encode_ne_nil (r : Reply) : r.encode ≠ [] := by
  cases r <;> exact List.cons_ne_nil _ _

theorem decodeAll_encode {rs : List Reply} (h : ∀ r ∈ rs, r.WellFormed) {n : Nat}
    (hn : rs.length ≤ n) : decodeAll n (rs.flatMap Reply.encode) = some rs := by
  induction rs generalizing n with
  | nil => simp [decodeAll]
  | cons r rs ih =>
    cases n with
    | zero => simp at hn
    | succ n =>
      have hrest := ih (fun r' hr' => h r' (List.mem_cons_of_mem _ hr')) (Nat.le_of_succ_le_succ hn)
      have hone := decode_encode (h r List.mem_cons_self) (rs.flatMap Reply.encode)
      rw [List.flatMap_cons]
      cases hs : r.encode ++ rs.flatMap Reply.encode with
      | nil => exact absurd (List.append_eq_nil_iff.mp hs).1 (encode_ne_nil r)
      | cons c s =>
        rw [hs] at hone
        rw [decodeAll, hone]
        simp only [hrest]
        rfl

theorem length_le_flatMap (rs : List Reply) : rs.length ≤ (rs.flatMap Reply.encode).length := by
  induction rs with
  | nil => exact Nat.zero_le _
  | cons r rs ih =>
    have hpos := List.length_pos_of_ne_nil (encode_ne_nil r)
    rw [List.flatMap_cons, List.length_append, List.length_cons]
    omega

/-- A stream of replies is read to its end. -/
theorem decodeAll_stream {rs : List Reply} (h : ∀ r ∈ rs, r.WellFormed) :
    decodeAll (rs.flatMap Reply.encode).length (rs.flatMap Reply.encode) = some rs :=
  decodeAll_encode h (length_le_flatMap rs)

end ServerReplyFormat
