import AttestationChain.Machinery.Bytes

/-!
# Machinery/Hexadecimal — the lower-case spelling of bytes

Every byte is spelled by two digits, and the spelling is read back digit by digit.  Reading takes
digits in either case: a text of pairs of digits (`IsText`) is spelled, in lower case, by what it
reads as (`spell_unspell`), and what was spelled reads as it was (`unspell_spell`).
-/

namespace Hexadecimal

/-- The lower-case digit of a number below sixteen. -/
def digit (n : ℕ) : UInt8 := if n < 10 then (48 + n).toUInt8 else (87 + n).toUInt8

/-- The lower-case spelling of bytes. -/
def spell (b : Bytes) : Bytes := b.flatMap fun v => [digit (v.toNat / 16), digit (v.toNat % 16)]

/-- A letter in lower case; any other character as it is. -/
def lower (c : UInt8) : UInt8 := if 65 ≤ c ∧ c ≤ 90 then c + 32 else c

@[simp] theorem spell_nil : spell [] = [] := rfl

@[simp] theorem spell_cons (v : UInt8) (b : Bytes) :
    spell (v :: b) = digit (v.toNat / 16) :: digit (v.toNat % 16) :: spell b := rfl

theorem length_spell (b : Bytes) : (spell b).length = 2 * b.length := by
  induction b with
  | nil => rfl
  | cons v b ih => rw [spell_cons, List.length_cons, List.length_cons, ih, List.length_cons]; omega

/-! ## Reading -/

/-- The hexadecimal digits, in either case. -/
def IsDigit (c : UInt8) : Prop := (48 ≤ c ∧ c ≤ 57) ∨ (65 ≤ c ∧ c ≤ 70) ∨ (97 ≤ c ∧ c ≤ 102)

instance (c : UInt8) : Decidable (IsDigit c) := inferInstanceAs (Decidable (_ ∨ _))

/-- The value of a digit. -/
def value (c : UInt8) : ℕ :=
  if c ≤ 57 then c.toNat - 48 else if c ≤ 70 then c.toNat - 55 else c.toNat - 87

/-- **A text of pairs of digits.** -/
def IsText (s : Bytes) : Prop := s.length % 2 = 0 ∧ ∀ c ∈ s, IsDigit c

/-- The bytes that pairs of digits read as. -/
def unspell : Bytes → Bytes
  | a :: b :: s => (value a * 16 + value b).toUInt8 :: unspell s
  | _ => []

theorem digit_value {c : UInt8} (h : IsDigit c) : value c < 16 ∧ digit (value c) = lower c :=
  forall_byte (p := fun c => IsDigit c → value c < 16 ∧ digit (value c) = lower c)
    (by decide +kernel) c h

theorem isDigit_digit {n : ℕ} (h : n < 16) : IsDigit (digit n) ∧ value (digit n) = n := by
  have hall : ∀ n : Fin 16, IsDigit (digit n) ∧ value (digit n) = n := by decide
  exact hall ⟨n, h⟩

@[simp] theorem isText_nil : IsText [] := ⟨rfl, by simp⟩

theorem not_isText_singleton (c : UInt8) : ¬ IsText [c] := by simp [IsText]

theorem isText_cons_cons {a b : UInt8} {s : Bytes} :
    IsText (a :: b :: s) ↔ IsDigit a ∧ IsDigit b ∧ IsText s := by
  have hlen : (a :: b :: s).length % 2 = s.length % 2 := by
    rw [List.length_cons, List.length_cons]
    omega
  rw [IsText, IsText, hlen, List.forall_mem_cons, List.forall_mem_cons]
  tauto

/-- **What a text reads as** is spelled by the text in lower case… -/
theorem spell_unspell {s : Bytes} (h : IsText s) : spell (unspell s) = s.map lower := by
  induction s using unspell.induct with
  | case1 a b s ih =>
    obtain ⟨ha, hb, hs⟩ := isText_cons_cons.1 h
    obtain ⟨hlta, hda⟩ := digit_value ha
    obtain ⟨hltb, hdb⟩ := digit_value hb
    have hvalue : (value a * 16 + value b).toUInt8.toNat = value a * 16 + value b :=
      UInt8.toNat_ofNat_of_lt' (show value a * 16 + value b < 256 by omega)
    rw [unspell, spell_cons, ih hs, hvalue, show (value a * 16 + value b) / 16 = value a by omega,
      show (value a * 16 + value b) % 16 = value b by omega, hda, hdb, List.map_cons, List.map_cons]
  | case2 s hs =>
    rcases s with _ | ⟨a, _ | ⟨b, s⟩⟩
    · rfl
    · exact absurd h (not_isText_singleton a)
    · exact absurd rfl (hs a b s)

/-- …and what is spelled is a text that reads as it was. -/
theorem unspell_spell (b : Bytes) : IsText (spell b) ∧ unspell (spell b) = b := by
  induction b with
  | nil => exact ⟨isText_nil, rfl⟩
  | cons v b ih =>
    have hv := v.toNat_lt
    obtain ⟨hhi, hvhi⟩ := isDigit_digit (n := v.toNat / 16) (by omega)
    obtain ⟨hlo, hvlo⟩ := isDigit_digit (n := v.toNat % 16) (by omega)
    rw [spell_cons, isText_cons_cons, unspell, hvhi, hvlo, ih.2,
      show v.toNat / 16 * 16 + v.toNat % 16 = v.toNat by omega]
    exact ⟨⟨hhi, hlo, ih.1⟩, by simp⟩

end Hexadecimal
