import AttestationChain.Http.Wire

/-!
# Http/Client — a response, read back
-/

namespace Http

open Segments

/-! ## Reading a response -/

/-- The status in a status line, which matches `(HTTP/1\.[01]) (\d{3})(?: (.*?))?\r\n`. -/
def parseStatusLine (line : Bytes) : Option ℤ := do
  let s := cstr line
  guard (endWithCrlf s)
  let s := s.take (s.length - 2)
  guard (ascii "HTTP/1.0 " <+: s ∨ ascii "HTTP/1.1 " <+: s)
  let digits := (s.drop 9).take 3
  guard (digits.length = 3 ∧ digits.all (isDigit 10))
  let reason := s.drop 12
  guard (reason = [] ∨ (reason.head? = some 32 ∧ reason.all fun c => c ≠ 13 ∧ c ≠ 10))
  return digitsValue 10 digits

/-- One line of `read_response_line`: what only says to go on is passed over. -/
def responseLineRound : Round UInt8 Unit (Option ℤ) where
  read := fun _ strm =>
    match getline strm with
    | (none, rest) => (.inr none, rest)
    | (some line, rest) =>
      match parseStatusLine line with
      | none => (.inr none, rest)
      | some status =>
        if status ≠ 100 then (.inr (some status), rest)
        else
          match getline rest with
          | (none, rest) => (.inr none, rest)
          | (some _, rest) => (.inl (), rest)
  length_read := by
    intro s s' strm rest h
    split at h
    · cases h
    · next hline =>
      split at h
      · cases h
      · split at h
        · cases h
        · split at h
          · cases h
          · next hblank =>
            cases h
            exact (length_receiveUntil hblank).trans (length_receiveUntil hline)

/-- `read_response_line`. -/
def readResponseLine (strm : Incoming UInt8) : Option ℤ × Incoming UInt8 :=
  responseLineRound.loop () strm

/-- The body of a response, which a response without content has not. -/
def readResponseBody (status : ℤ) (headers : Headers) (strm : Incoming UInt8) :
    Option Response × Incoming UInt8 :=
  if status = 204 then (some ⟨status, headers, []⟩, strm)
  else
    match readContent headers (fun body piece => some (body ++ piece)) [] strm with
    | (.error _, rest) => (none, rest)
    | (.ok body, rest) => (some ⟨status, headers, body⟩, rest)

/-- `ClientImpl::process_request`, from the answer on, for a request that is answered with a
body. -/
def readResponse (strm : Incoming UInt8) : Option Response × Incoming UInt8 :=
  match readResponseLine strm with
  | (none, rest) => (none, rest)
  | (some status, rest) =>
    match readHeaders [] rest with
    | ((false, _), rest) => (none, rest)
    | ((true, headers), rest) => readResponseBody status headers rest

/-! ## The status line -/

theorem length_toDecimal {n : ℕ} (hlo : 100 ≤ n) (hhi : n < 1000) : (toDecimal n).length = 3 := by
  have hle := (Nat.length_toDigits_le_iff (b := 10) (n := n) (k := 3) (by decide)
    (by decide)).2 hhi
  have hge := mt (Nat.length_toDigits_le_iff (b := 10) (n := n) (k := 2) (by decide)
    (by decide)).1 (by omega)
  rw [toDecimal, numeral, List.length_map]
  omega

theorem ascii_toString (n : ℕ) : ascii (toString (n : ℤ)) = toDecimal n := by
  change ascii n.repr = _
  rw [ascii, Nat.toList_repr]
  rfl

/-- A reason is a text of one line. -/
theorem statusMessage_line (status : ℤ) :
    ∀ c ∈ ascii (statusMessage status), c ≠ 0 ∧ c ≠ 13 ∧ c ≠ 10 := by
  have hall : ∀ entry ∈ statusMessages,
      ((ascii entry.2).all fun c => c ≠ 0 ∧ c ≠ 13 ∧ c ≠ 10) = true := by
    decide +kernel
  rw [statusMessage]
  cases hfind : statusMessages.find? (·.1 = status) with
  | none => exact forall_mem_of_all (by decide)
  | some entry => exact forall_mem_of_all (hall entry (List.mem_of_find?_eq_some hfind))

/-- The status line, without its end. -/
def statusText (n : ℕ) : Bytes :=
  ascii "HTTP/1.1 " ++ toDecimal n ++ 32 :: ascii (statusMessage n)

theorem statusLine_eq (n : ℕ) : statusLine n = statusText n ++ crlf := by
  have hblank : ascii " " = [32] := rfl
  rw [statusLine, ascii_toString, statusText, hblank]
  simp

theorem statusText_line (n : ℕ) : ∀ c ∈ statusText n, c ≠ 0 ∧ c ≠ 10 := by
  intro c hc
  rw [statusText, List.mem_append, List.mem_append, List.mem_cons] at hc
  obtain (hc | hc) | rfl | hc := hc
  · have hversion : ∀ c ∈ ascii "HTTP/1.1 ", c ≠ 0 ∧ c ≠ 10 := forall_mem_of_all (by decide)
    exact hversion c hc
  · obtain ⟨-, hall, -⟩ := toDecimal_spec n
    obtain ⟨-, hzero, hline, -⟩ := plain_of_isDigit (hall c hc)
    exact ⟨hzero, hline⟩
  · decide
  · exact ⟨(statusMessage_line _ c hc).1, (statusMessage_line _ c hc).2.2⟩

/-- **A status line is read back.** -/
theorem parseStatusLine_statusLine {n : ℕ} (hlo : 100 ≤ n) (hhi : n < 1000) :
    parseStatusLine (statusLine n) = some (n : ℤ) := by
  obtain ⟨-, hall, hval⟩ := toDecimal_spec n
  have hlen := length_toDecimal hlo hhi
  have hcstr : cstr (statusText n ++ crlf) = statusText n ++ crlf := by
    refine List.takeWhile_eq_self_iff.2 fun c hc => decide_eq_true ?_
    obtain hc | hc := List.mem_append.1 hc
    · exact (statusText_line n c hc).1
    · rintro rfl
      exact absurd hc (by decide)
  have htake : (statusText n ++ crlf).take ((statusText n ++ crlf).length - 2) = statusText n := by
    simp [crlf]
  have hprefix : ascii "HTTP/1.1 " <+: statusText n := by
    rw [statusText, List.append_assoc]
    exact List.prefix_append _ _
  have hdigits : ((statusText n).drop 9).take 3 = toDecimal n := by
    rw [statusText, List.append_assoc]
    exact List.take_left' hlen
  have hreason : (statusText n).drop 12 = 32 :: ascii (statusMessage n) := by
    rw [statusText]
    exact List.drop_left' (by rw [List.length_append, hlen]; rfl)
  have hline : (32 :: ascii (statusMessage n)).all fun c => c ≠ 13 ∧ c ≠ 10 := by
    refine List.all_eq_true.2 fun c hc => decide_eq_true ?_
    obtain rfl | hc := List.mem_cons.1 hc
    · decide
    · exact (statusMessage_line _ c hc).2
  have hdecimal : (toDecimal n).all (isDigit 10) := List.all_eq_true.2 hall
  rw [statusLine_eq]
  simp only [parseStatusLine, hcstr, endWithCrlf_append, htake, hprefix, hdigits, hlen, hdecimal,
    hreason, hline]
  simp [hval]

end Http
