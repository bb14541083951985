import AttestationChain.Machinery.Hexadecimal
import Mathlib.Data.List.DropRight

/-!
# Http/Text — the texts of a request, as the server takes them apart

Texts are byte strings, and now and then C strings, which end before their first NUL.  What the
server takes from the C library (`strtoul`, `strcasecmp`) is what the C standard says of it, for a
`long` of 64 bits and the C locale.
-/

namespace Http

open Hexadecimal

/-- The C string at the start of some bytes: what stands before the first NUL. -/
def cstr (s : Bytes) : Bytes := s.takeWhile (· ≠ 0)

/-- `is_space_or_tab`. -/
def isSpaceOrTab (c : UInt8) : Bool := c = 32 ∨ c = 9

/-- `trim_copy`: the blanks on both sides are left out. -/
def trim (s : Bytes) : Bytes := (s.dropWhile isSpaceOrTab).rdropWhile isSpaceOrTab

/-- What is no blank keeps what is before it. -/
theorem rdropWhile_append_cons {c : UInt8} (hc : isSpaceOrTab c = false) (s t : Bytes) :
    (s ++ c :: t).rdropWhile isSpaceOrTab = s ++ c :: t.rdropWhile isSpaceOrTab := by
  induction t using List.reverseRecOn with
  | nil => exact List.rdropWhile_concat_neg _ _ _ (by simp [hc])
  | append_singleton t d ih =>
    rw [← List.cons_append, ← List.append_assoc, List.rdropWhile_concat, List.rdropWhile_concat]
    split_ifs
    · exact ih
    · simp

/-- `split`: the parts between delimiters, trimmed, and of those the ones that are not empty. -/
def split (d : UInt8) (s : Bytes) : List Bytes := ((s.splitOn d).map trim).filter (· ≠ [])

/-! ## Escapes -/

/-- `from_hex_to_i`: the value of as many hexadecimal digits, if there are. -/
def fromHexToI (s : Bytes) (cnt : ℕ) : Option ℕ :=
  if (s.take cnt).length = cnt ∧ (s.take cnt).all fun c => IsDigit c then
    some ((s.take cnt).foldl (fun val c => val * 16 + value c) 0)
  else none

/-- `to_utf8`: the encoding of a code point; nothing for what is none. -/
def toUtf8 (code : ℕ) : Bytes :=
  if code < 0x0080 then [code.toUInt8]
  else if code < 0x0800 then [(0xC0 + code / 64).toUInt8, (0x80 + code % 64).toUInt8]
  else if 0xD800 ≤ code ∧ code < 0xE000 then []
  else if code < 0x10000 then
    [(0xE0 + code / 4096).toUInt8, (0x80 + code / 64 % 64).toUInt8, (0x80 + code % 64).toUInt8]
  else if code < 0x110000 then
    [(0xF0 + code / 262144).toUInt8, (0x80 + code / 4096 % 64).toUInt8,
      (0x80 + code / 64 % 64).toUInt8, (0x80 + code % 64).toUInt8]
  else []

/-- `decode_url`, without turning pluses into blanks: `skip` counts what an escape took ahead. -/
def decodeUrlFrom : (skip : ℕ) → Bytes → Bytes
  | _, [] => []
  | skip + 1, _ :: s => decodeUrlFrom skip s
  | 0, c :: s =>
    if c = 37 ∧ s ≠ [] then
      if s.head? = some 117 then
        match fromHexToI s.tail 4 with
        -- `u0000`
        | some val => toUtf8 val ++ decodeUrlFrom 5 s
        | none => c :: decodeUrlFrom 0 s
      else
        match fromHexToI s 2 with
        -- `00`
        | some val => val.toUInt8 :: decodeUrlFrom 2 s
        | none => c :: decodeUrlFrom 0 s
    else c :: decodeUrlFrom 0 s

def decodeUrl (s : Bytes) : Bytes := decodeUrlFrom 0 s

example : decodeUrl (ascii "/entry%4eetwork%u0021%zz%") = ascii "/entryNetwork!%zz%" := by decide

/-- A text without escapes is left as it is. -/
theorem decodeUrl_plain {s : Bytes} (h : (37 : UInt8) ∉ s) : decodeUrl s = s := by
  rw [decodeUrl]
  induction s with
  | nil => rfl
  | cons c s ih =>
    obtain ⟨hc, hs⟩ := not_or.1 (fun hor => h (List.mem_cons.2 hor))
    rw [decodeUrlFrom, if_neg fun h => hc h.1.symm, ih hs]

/-! ## The C library -/

/-- `strcasecmp`, for equality. -/
def sameCase (s t : Bytes) : Bool := (cstr s).map lower = (cstr t).map lower

/-- `isspace`. -/
def isSpace (c : UInt8) : Bool := c = 32 ∨ (9 ≤ c ∧ c ≤ 13)

/-- The digits of a base up to sixteen. -/
def isDigit (base : ℕ) (c : UInt8) : Bool := IsDigit c ∧ value c < base

/-- What digits of a base are worth. -/
def digitsValue (base : ℕ) (ds : Bytes) : ℕ := ds.foldl (fun n c => n * base + value c) 0

/-- `ULONG_MAX`, and the greatest `size_t`. -/
def ulongMax : ℕ := 2 ^ 64 - 1

/-- The prefix of a hexadecimal number, where one follows. -/
def skipPrefix (s : Bytes) : Bytes :=
  if s.head? = some 48 ∧ (s.tail.head? = some 120 ∨ s.tail.head? = some 88) ∧
      (s.drop 2).head?.any (isDigit 16) then s.drop 2
  else s

/-- `strtoul`, `strtoull`: the number at the start of a text, behind blanks and a sign; none where
no digit is.  One that is too large is `ULONG_MAX`, and one with a minus is negated. -/
def strtoul (base : ℕ) (s : Bytes) : Option ℕ :=
  let s := s.dropWhile isSpace
  let negative := s.head? = some 45
  let s := if s.head? = some 45 ∨ s.head? = some 43 then s.tail else s
  let s := if base = 16 then skipPrefix s else s
  let ds := s.takeWhile (isDigit base)
  if ds = [] then none
  else if ulongMax < digitsValue base ds then some ulongMax
  else if negative ∧ digitsValue base ds ≠ 0 then some (2 ^ 64 - digitsValue base ds)
  else some (digitsValue base ds)

example : strtoul 16 (ascii " 1fg") = some 31 := by decide
example : strtoul 10 (ascii "-1") = some ulongMax := by decide

/-! ## Numerals -/

/-- The numeral of a number in a base. -/
def numeral (base n : ℕ) : Bytes := (Nat.toDigits base n).map fun c => c.toNat.toUInt8

/-- `std::to_string`. -/
def toDecimal (n : ℕ) : Bytes := numeral 10 n

theorem digitChar_byte {base d : ℕ} (hbase : base ≤ 16) (hd : d < base) :
    isDigit base d.digitChar.toNat.toUInt8 = true ∧ value d.digitChar.toNat.toUInt8 = d := by
  have hdigits : ∀ d : Fin 16, IsDigit (d : ℕ).digitChar.toNat.toUInt8 ∧
      value (d : ℕ).digitChar.toNat.toUInt8 = d := by decide
  obtain ⟨hdigit, hvalue⟩ := hdigits ⟨d, by omega⟩
  exact ⟨decide_eq_true ⟨hdigit, hvalue ▸ hd⟩, hvalue⟩

/-- **A numeral is made of digits, and worth its number.** -/
theorem numeral_spec {base : ℕ} (hone : 1 < base) (hbase : base ≤ 16) (n : ℕ) :
    numeral base n ≠ [] ∧ (∀ c ∈ numeral base n, isDigit base c = true) ∧
      digitsValue base (numeral base n) = n := by
  induction n using Nat.strong_induction_on with
  | h n ih =>
    rw [numeral, Nat.toDigits_eq_if hone]
    split_ifs with hlt
    · obtain ⟨hdigit, hvalue⟩ := digitChar_byte hbase hlt
      simp [digitsValue, hdigit, hvalue]
    · have hpos : 0 < n := by omega
      obtain ⟨-, hall, hval⟩ := ih (n / base) (Nat.div_lt_self hpos hone)
      obtain ⟨hdigit, hvalue⟩ := digitChar_byte hbase (Nat.mod_lt n (by omega))
      rw [List.map_append, ← numeral]
      refine ⟨by simp, fun c hc => ?_, ?_⟩
      · obtain hc | hc := List.mem_append.1 hc
        · exact hall c hc
        · rw [List.mem_singleton.1 hc]
          exact hdigit
      · rw [digitsValue, List.foldl_append, ← digitsValue, hval]
        simp [hvalue, Nat.div_add_mod']

/-- No digit is a blank, a sign, or the mark of a base. -/
theorem ne_of_isDigit {base : ℕ} {c : UInt8} (h : isDigit base c = true) :
    isSpace c = false ∧ c ≠ 45 ∧ c ≠ 43 ∧ c ≠ 120 ∧ c ≠ 88 := by
  have hall : ∀ c : UInt8, IsDigit c → isSpace c = false ∧ c ≠ 45 ∧ c ≠ 43 ∧ c ≠ 120 ∧ c ≠ 88 :=
    forall_byte (by decide +kernel)
  exact hall c (of_decide_eq_true h).1

/-- No digit ends a text or a line, or starts an escape. -/
theorem plain_of_isDigit {base : ℕ} {c : UInt8} (h : isDigit base c = true) :
    isSpaceOrTab c = false ∧ c ≠ 0 ∧ c ≠ 10 ∧ c ≠ 37 := by
  have hall : ∀ c : UInt8, IsDigit c → isSpaceOrTab c = false ∧ c ≠ 0 ∧ c ≠ 10 ∧ c ≠ 37 :=
    forall_byte (by decide +kernel)
  exact hall c (of_decide_eq_true h).1

/-- There is no prefix before digits. -/
theorem skipPrefix_append {base : ℕ} {ds rest : Bytes} (hds : ∀ c ∈ ds, isDigit base c = true)
    (hne : ds ≠ []) (hrest : ∀ c ∈ rest.head?, c ≠ 120 ∧ c ≠ 88) :
    skipPrefix (ds ++ rest) = ds ++ rest := by
  obtain ⟨c, s, rfl⟩ := List.exists_cons_of_ne_nil hne
  refine if_neg fun h => ?_
  obtain ⟨-, hmark, -⟩ := h
  obtain _ | ⟨d, s⟩ := s
  · exact hmark.elim (fun h => (hrest _ h).1 rfl) fun h => (hrest _ h).2 rfl
  · obtain ⟨-, -, -, hx, hX⟩ := ne_of_isDigit (hds d (by simp))
    exact hmark.elim (fun h => hx (Option.some.inj h)) fun h => hX (Option.some.inj h)

/-- **A numeral is read** as its number, where it ends. -/
theorem strtoul_numeral {base n : ℕ} (hone : 1 < base) (hbase : base ≤ 16) (hn : n ≤ ulongMax)
    {rest : Bytes} (hrest : ∀ c ∈ rest.head?, isDigit base c = false ∧ c ≠ 120 ∧ c ≠ 88) :
    strtoul base (numeral base n ++ rest) = some n := by
  obtain ⟨hne, hall, hval⟩ := numeral_spec hone hbase n
  have hskip := skipPrefix_append hall hne fun c hc => (hrest c hc).2
  have htake : (numeral base n ++ rest).takeWhile (isDigit base) = numeral base n := by
    rw [List.takeWhile_append_of_pos hall]
    cases rest with
    | nil => simp
    | cons c rest => rw [List.takeWhile_cons_of_neg (by simp [(hrest c rfl).1]), List.append_nil]
  obtain ⟨c, s, hs⟩ := List.exists_cons_of_ne_nil hne
  obtain ⟨hspace, hminus, hplus, -⟩ := ne_of_isDigit (hall c (hs ▸ List.mem_cons_self))
  have hhead : (numeral base n ++ rest).head? = some c := by rw [hs]; rfl
  have hdrop : (numeral base n ++ rest).dropWhile isSpace = numeral base n ++ rest := by
    rw [hs, List.cons_append, List.dropWhile_cons_of_neg (by simp [hspace])]
  simp [strtoul, hdrop, hhead, hminus, hplus, hskip, htake, hne, hval, Nat.not_lt.2 hn]

theorem toDecimal_spec (n : ℕ) : toDecimal n ≠ [] ∧
    (∀ c ∈ toDecimal n, isDigit 10 c = true) ∧ digitsValue 10 (toDecimal n) = n :=
  numeral_spec (by decide) (by decide) n

theorem not_blank_toDecimal (n : ℕ) : ∀ c ∈ toDecimal n, ¬ isSpaceOrTab c := fun c hc => by
  simp [(plain_of_isDigit ((toDecimal_spec n).2.1 c hc)).1]

theorem cstr_toDecimal (n : ℕ) : cstr (toDecimal n) = toDecimal n :=
  List.takeWhile_eq_self_iff.2 fun c hc =>
    decide_eq_true (plain_of_isDigit ((toDecimal_spec n).2.1 c hc)).2.1

theorem decodeUrl_toDecimal (n : ℕ) : decodeUrl (toDecimal n) = toDecimal n :=
  decodeUrl_plain fun h => (plain_of_isDigit ((toDecimal_spec n).2.1 37 h)).2.2.2 rfl

theorem strtoul_toDecimal {n : ℕ} (hn : n ≤ ulongMax) : strtoul 10 (toDecimal n) = some n := by
  have hread : strtoul 10 (numeral 10 n ++ []) = some n :=
    strtoul_numeral (by decide) (by decide) hn fun c hc => absurd hc (by simp)
  rwa [List.append_nil] at hread

end Http
