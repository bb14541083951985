import AttestationChain.Dcap.Json.RoundTrip
import AttestationChain.Dcap.Json.Steps

/-!
# Dcap/Json/Tokens — what the parser stands at

Blanks are passed once (`consumeWs_idem`), so a member is its key, a colon and what is put under the
key (`members_of_value`).  A number is a text of its characters and perhaps an exponent
(`parseNumber_eq`).
-/

namespace Dcap.JSON

variable {Double : Type}

/-! ## Blanks -/

/-- Blanks end in the memory, or run through it. -/
theorem consumeWs_cases (mem : Bytes) :
    (∃ c r, consumeWs mem = .ok (c :: r) ∧ isSpace c = false ∧
      ∀ t, consumeWs (mem ++ t) = .ok (c :: r ++ t)) ∨
    (consumeWs mem = .error .outOfBounds ∧ ∀ t, consumeWs (mem ++ t) = consumeWs t) := by
  induction mem with
  | nil => exact .inr ⟨rfl, fun _ => rfl⟩
  | cons c mem ih =>
    by_cases hc : isSpace c
    · rcases ih with ⟨d, r, h, hd, happend⟩ | ⟨h, happend⟩
      · exact .inl ⟨d, r, by rw [consumeWs, if_pos hc, h], hd,
          fun t => by rw [List.cons_append, consumeWs, if_pos hc, happend]⟩
      · exact .inr ⟨by rw [consumeWs, if_pos hc, h],
          fun t => by rw [List.cons_append, consumeWs, if_pos hc, happend]⟩
    · exact .inl ⟨c, mem, by rw [consumeWs, if_neg hc], by simpa using hc,
        fun t => by rw [List.cons_append, consumeWs, if_neg hc]⟩

theorem consumeWs_append {mem r : Bytes} (h : consumeWs mem = .ok r) (t : Bytes) :
    consumeWs (mem ++ t) = .ok (r ++ t) := by
  rcases consumeWs_cases mem with ⟨c, r', h', -, happend⟩ | ⟨h', -⟩
  · rw [h'] at h
    cases h
    exact happend t
  · rw [h'] at h
    cases h

/-- Blanks are passed once. -/
theorem consumeWs_idem {mem r : Bytes} (h : consumeWs mem = .ok r) : consumeWs r = .ok r := by
  rcases consumeWs_cases mem with ⟨c, r', h', hc, -⟩ | ⟨h', -⟩
  · rw [h'] at h
    cases h
    rw [consumeWs, if_neg (by simpa using hc)]
  · rw [h'] at h
    cases h

theorem length_consumeWs {mem r : Bytes} (h : consumeWs mem = .ok r) : r.length ≤ mem.length := by
  have := leaves_consumeWs mem
  rw [h] at this
  exact this

section Members

variable {doubles : Doubles Double} {overload : Overload}

theorem consumeWs_bind_next {β : Type} (status : CrustStatus) (mem : Bytes)
    (f : Parsed Double → Except Fault β) :
    (consumeWs mem >>= fun mem => next doubles overload status mem >>= f) =
      next doubles overload status mem >>= f := by
  rcases h : consumeWs mem with fault | r
  · rw [next_eq, h]
    rfl
  · change next doubles overload status r >>= f = _
    rw [next_eq, next_eq, consumeWs_idem h, h]

/-- Behind a key and its colon stands the value. -/
theorem members_of_key {status status' : CrustStatus} {key obj : JSON Double} {mem r r' : Bytes}
    (hkey : next doubles overload status mem = .ok (key, status', r))
    (hcolon : consumeWs r = .ok (58 :: r')) :
    members doubles overload status obj mem =
      next doubles overload status' r' >>= memberValue doubles overload key obj := by
  rw [members_eq, hkey]
  change consumeWs r >>= _ = _
  rw [hcolon]
  exact consumeWs_bind_next status' r' _

/-- A member is put, and then what follows it decides. -/
theorem members_of_value {status status' status'' : CrustStatus} {key obj v : JSON Double}
    {mem r r' x : Bytes} (hkey : next doubles overload status mem = .ok (key, status', r))
    (hcolon : consumeWs r = .ok (58 :: r'))
    (hvalue : next doubles overload status' r' = .ok (v, status'', x)) :
    members doubles overload status obj mem = putMember key obj v >>= fun obj =>
      consumeWs x >>= memberAt doubles overload status'' obj := by
  rw [members_of_key hkey hcolon, hvalue]
  rfl

end Members

/-! ## Numbers -/

/-- A character of a number. -/
def isNumberChar (c : UInt8) : Bool := c = 45 || isDigit c || c = 46

theorem isNumberChar_of_endsNumber {c : UInt8} (h : endsNumber c = true) :
    isNumberChar c = false := by
  simp only [endsNumber, isSpace, isNumberChar, isDigit, Bool.or_eq_true, Bool.and_eq_true,
    decide_eq_true_eq, Bool.or_eq_false_iff, Bool.and_eq_false_iff, decide_eq_false_iff_not] at *
  rcases h with (((rfl | ⟨-, hle⟩) | rfl) | rfl) | rfl
  · decide
  · have hlt : ∀ d : UInt8, 13 < d → c ≠ d := by
      rintro d hd rfl
      exact absurd hle (UInt8.not_le.2 hd)
    exact ⟨⟨hlt 45 (by decide), .inl (UInt8.not_le.2 (UInt8.lt_of_le_of_lt hle (by decide)))⟩,
      hlt 46 (by decide)⟩
  · decide
  · decide
  · decide

theorem isNumberChar_of_isDigit {c : UInt8} (h : isDigit c = true) : isNumberChar c = true := by
  simp [isNumberChar, h]

theorem isSpace_of_number {c : UInt8} (h : isDigit c ∨ c = 45) : isSpace c = false := by
  have hnumber : isNumberChar c = true := by
    rcases h with h | rfl
    · exact isNumberChar_of_isDigit h
    · rfl
  by_contra hspace
  have hends : endsNumber c = true := by simp [endsNumber, Bool.eq_true_of_not_eq_false hspace]
  rw [isNumberChar_of_endsNumber hends] at hnumber
  cases hnumber

theorem endsNumber_ne {d : UInt8} (h : endsNumber d = true) : ¬ (d = 69 ∨ d = 101) := by
  rintro (rfl | rfl)
  · exact absurd h (by decide)
  · exact absurd h (by decide)

theorem isNumberChar_of {c : UInt8} (h : isDigit c ∨ c = 45) : c ≠ 34 ∧ c ≠ 91 ∧ c ≠ 123 ∧
    ¬ (c = 116 ∨ c = 102) ∧ c ≠ 110 := by
  refine ⟨?_, ?_, ?_, ?_, ?_⟩
  · rintro rfl
    exact absurd h (by decide)
  · rintro rfl
    exact absurd h (by decide)
  · rintro rfl
    exact absurd h (by decide)
  · rintro (rfl | rfl)
    · exact absurd h (by decide)
    · exact absurd h (by decide)
  · rintro rfl
    exact absurd h (by decide)

theorem scanWhile_append {p : UInt8 → Bool} {w : Bytes} (hw : w.all p = true) {c : UInt8}
    (hc : p c = false) (r : Bytes) : scanWhile p (w ++ c :: r) = .ok (w, c, r) := by
  induction w with
  | nil => rw [List.nil_append, scanWhile, if_neg (by simp [hc])]
  | cons d w ih =>
    simp only [List.all_cons, Bool.and_eq_true] at hw
    rw [List.cons_append, scanWhile, if_pos hw.1, ih hw.2]
    rfl

/-- An exponent: its sign, its digits, the character that ends them and the memory behind it. -/
def scanExponent (mem : Bytes) : Except Fault (Bytes × Bytes × UInt8 × Bytes) := do
  let (sign, mem) ← exponentSign mem
  let (digits, d, mem) ← scanWhile isDigit mem
  .ok (sign, digits, d, mem)

/-- A number without an exponent, from its text and the character behind it. -/
def plainNumber (doubles : Doubles Double) (status : CrustStatus) (val : Bytes) (c : UInt8)
    (mem : Bytes) : Except Fault (Parsed Double) :=
  if !endsNumber c then .ok (.null, .jsonNumberError, mem)
  else if 46 ∈ val then
    match doubles.stod val with
    | none => .error .exception
    | some x => .ok (.floating (doubles.mul x (doubles.pow10 0)), status, c :: mem)
  else stol val >>= fun i => .ok (.integral i, status, c :: mem)

/-- A number with an exponent, likewise. -/
def exponentNumber (doubles : Doubles Double) (status : CrustStatus) (val exp : Bytes) (c : UInt8)
    (mem : Bytes) : Except Fault (Parsed Double) :=
  if !endsNumber c then .ok (.null, .jsonNumberError, mem)
  else stol exp >>= fun exp =>
    if 46 ∈ val then
      match doubles.stod val with
      | none => .error .exception
      | some x => .ok (.floating (doubles.mul x (doubles.pow10 exp)), status, c :: mem)
    else stol val >>= fun i =>
      .ok (.floating (doubles.mul (doubles.ofLong i) (doubles.pow10 exp)), status, c :: mem)

section Numbers

variable (doubles : Doubles Double) (status : CrustStatus)

theorem parseNumber_eq (mem : Bytes) : parseNumber doubles status mem =
    scanWhile isNumberChar mem >>= fun r =>
      if r.2.1 = 69 ∨ r.2.1 = 101 then
        scanExponent r.2.2 >>= fun e =>
          exponentNumber doubles status r.1 (e.1 ++ e.2.1) e.2.2.1 e.2.2.2
      else plainNumber doubles status r.1 r.2.1 r.2.2 := by
  rw [parseNumber]
  change scanWhile isNumberChar mem >>= _ = _
  rcases scanWhile isNumberChar mem with fault | ⟨val, c, mem⟩
  · rfl
  change (if c = 69 ∨ c = 101 then _ else _) = (if c = 69 ∨ c = 101 then _ else _)
  by_cases he : c = 69 ∨ c = 101
  · rw [if_pos he, if_pos he, scanExponent]
    rcases exponentSign mem with fault | ⟨sign, mem⟩
    · rfl
    change scanWhile isDigit mem >>= _ = (scanWhile isDigit mem >>= _) >>= _
    rcases scanWhile isDigit mem with fault | ⟨digits, d, mem⟩
    · rfl
    · rfl
  · rw [if_neg he, if_neg he]
    rfl

end Numbers

end Dcap.JSON
