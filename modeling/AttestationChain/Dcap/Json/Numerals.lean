import AttestationChain.Dcap.Json.Lexemes
import Mathlib.Tactic.Ring

/-!
# Dcap/Json/Numerals — what the parser makes of a number text

A number text is an integer, perhaps a fraction, perhaps an exponent.  The loop over the mantissa
takes it whole, and every reading ends at the character behind the text.  But the branch for the
exponent drops the character behind the `e` whatever it is, and behind a minus one more
(`ExponentText.kept`): only a `+`, or a zero in front of other digits, is nothing to lose
(`scansNumber_iff`).
-/

namespace Dcap.JSON

variable {Double : Type}

/-! ## Number texts -/

/-- The text of an exponent: its mark, a sign or none, and digits. -/
structure ExponentText where
  mark : UInt8
  sign : Option UInt8
  digits : Bytes
  mark_eq : mark = 69 ∨ mark = 101
  sign_eq : ∀ c ∈ sign, c = 43 ∨ c = 45
  ne_nil : digits ≠ []
  all_isDigit : digits.all isDigit = true

namespace ExponentText

/-- The text, behind the mark. -/
def behind (e : ExponentText) : Bytes := e.sign.toList ++ e.digits

/-- The integer that digits stand for under the sign. -/
def signed (e : ExponentText) (digits : Bytes) : ℤ :=
  if e.sign = some 45 then -(digitsValue digits : ℤ) else digitsValue digits

/-- **The integer written** after the mark. -/
def value (e : ExponentText) : ℤ := e.signed e.digits

/-- The digits the parser keeps: behind a `+` all, and otherwise all but the first. -/
def kept (e : ExponentText) : Bytes := if e.sign = some 43 then e.digits else e.digits.tail

end ExponentText

/-- **A number text**: an integer, digits behind a dot, and an exponent, the last two if any. -/
structure NumberText where
  integer : Bytes
  fraction : Option Bytes
  exponent : Option ExponentText
  isDigits : IsDigits integer
  fraction_isDigits : ∀ ds ∈ fraction, ds ≠ [] ∧ ds.all isDigit = true

namespace NumberText

/-- The text in front of the exponent. -/
def mantissa (n : NumberText) : Bytes := n.integer ++ n.fraction.elim [] fun ds => 46 :: ds

def text (n : NumberText) : Bytes :=
  n.mantissa ++ n.exponent.elim [] fun e => e.mark :: e.behind

/-- The exponent written: zero where there is none. -/
def exponentValue (n : NumberText) : ℤ := n.exponent.elim 0 ExponentText.value

/-- **Integer part and exponent fit a `long`.** -/
def FitsLong (n : NumberText) : Prop :=
  (-2 ^ 63 ≤ integerValue n.integer ∧ integerValue n.integer < 2 ^ 63) ∧
    -2 ^ 63 ≤ n.exponentValue ∧ n.exponentValue < 2 ^ 63

instance (n : NumberText) : Decidable n.FitsLong := inferInstanceAs (Decidable (_ ∧ _))

theorem all_isNumberChar_mantissa (n : NumberText) : n.mantissa.all isNumberChar = true := by
  rw [mantissa, List.all_append, n.isDigits.all_isNumberChar, Bool.true_and]
  cases hf : n.fraction with
  | none => rfl
  | some ds =>
    have hds := List.all_eq_true.1 (n.fraction_isDigits ds hf).2
    rw [Option.elim_some, List.all_cons, List.all_eq_true.2 fun c hc =>
      isNumberChar_of_isDigit (hds c hc)]
    rfl

/-- There is a dot in front of a fraction, and nowhere else. -/
theorem dot_mem_mantissa (n : NumberText) : 46 ∈ n.mantissa ↔ n.fraction ≠ none := by
  rw [mantissa, List.mem_append]
  cases n.fraction with
  | none => simpa using n.isDigits.dot_notMem
  | some ds => simp

end NumberText

/-! ## The exponent -/

/-- The exponent `parse_number` computes: its `exp`. -/
def exponentOf (mem : Bytes) : Except Fault ℤ :=
  scanWhile isNumberChar mem >>= fun r =>
    if r.2.1 = 69 ∨ r.2.1 = 101 then
      scanExponent r.2.2 >>= fun e => stol (e.1 ++ e.2.1)
    else .ok 0

namespace ExponentText

variable (e : ExponentText)

/-- The sign as the parser writes it down: a minus, or nothing. -/
def minus : Bytes := if e.sign = some 45 then [45] else []

/-- **What the parser takes of an exponent.** -/
theorem scanExponent_behind {c : UInt8} (hc : isDigit c = false) (r : Bytes) :
    scanExponent (e.behind ++ c :: r) = .ok (e.minus, e.kept, c, r) := by
  obtain ⟨d, ds, hds⟩ := List.exists_cons_of_ne_nil e.ne_nil
  have hall := e.all_isDigit
  rw [hds, List.all_cons, Bool.and_eq_true] at hall
  have hd : d ≠ 45 := by
    rintro rfl
    exact absurd hall.1 (by decide)
  have hscan := scanWhile_append hall.2 hc r
  have hscan' := scanWhile_append e.all_isDigit hc r
  rw [behind, minus, kept, scanExponent]
  cases hs : e.sign with
  | none =>
    rw [hds, Option.toList_none, List.nil_append, List.cons_append, exponentSign, if_neg hd]
    change scanWhile isDigit (ds ++ c :: r) >>= _ = _
    rw [hscan]
    rfl
  | some s =>
    rcases e.sign_eq s hs with rfl | rfl
    · rw [Option.toList_some, List.singleton_append, List.cons_append, exponentSign,
        if_neg (by decide)]
      change scanWhile isDigit (e.digits ++ c :: r) >>= _ = _
      rw [hscan']
      rfl
    · rw [hds, Option.toList_some, List.singleton_append, List.cons_append, exponentSign,
        if_pos rfl]
      change scanWhile isDigit (ds ++ c :: r) >>= _ = _
      rw [hscan]
      rfl

/-- The value of digits, by the first. -/
theorem digitsValue_cons (d : UInt8) (ds : Bytes) :
    digitsValue (d :: ds) = (d.toNat - 48) * 10 ^ ds.length + digitsValue ds := by
  have hfold : ∀ (ds : Bytes) (n : ℕ), ds.foldl (fun n c => n * 10 + (c.toNat - 48)) n
      = n * 10 ^ ds.length + digitsValue ds := by
    intro ds
    induction ds with
    | nil => intro n; simp [digitsValue]
    | cons c ds ih =>
      intro n
      rw [digitsValue, List.foldl_cons, List.foldl_cons, ih, ih, List.length_cons]
      ring
  rw [digitsValue, List.foldl_cons, hfold]
  simp

/-- Only a zero is nothing to lose. -/
theorem digitsValue_tail_eq_iff {d : UInt8} (ds : Bytes) (hd : isDigit d = true) :
    digitsValue ds = digitsValue (d :: ds) ↔ d = 48 := by
  have hle : 48 ≤ d.toNat := by
    simp only [isDigit, Bool.and_eq_true, decide_eq_true_eq] at hd
    exact UInt8.le_iff_toNat_le.1 hd.1
  have hpow : 0 < 10 ^ ds.length := Nat.pow_pos (by decide)
  rw [digitsValue_cons, ← UInt8.toNat_inj]
  change _ ↔ d.toNat = 48
  constructor
  · intro h
    have hzero : (d.toNat - 48) * 10 ^ ds.length = 0 := by omega
    rcases Nat.mul_eq_zero.1 hzero with hzero | hzero
    · omega
    · omega
  · intro h
    simp [h]

/-- The digits kept spell no more than the digits written. -/
theorem digitsValue_kept_le : digitsValue e.kept ≤ digitsValue e.digits := by
  rw [kept]
  split
  · exact le_rfl
  · obtain ⟨d, ds, hds⟩ := List.exists_cons_of_ne_nil e.ne_nil
    rw [hds, List.tail_cons, digitsValue_cons]
    exact Nat.le_add_left _ _

theorem signed_kept_bounds (hlo : -2 ^ 63 ≤ e.value) (hhi : e.value < 2 ^ 63) :
    -2 ^ 63 ≤ e.signed e.kept ∧ e.signed e.kept < 2 ^ 63 := by
  have hle := e.digitsValue_kept_le
  rw [value, signed] at hlo hhi
  rw [signed]
  by_cases hminus : e.sign = some 45
  · rw [if_pos hminus] at hlo hhi ⊢
    omega
  · rw [if_neg hminus] at hlo hhi ⊢
    omega

/-- **The parser's exponent**: an exception where it keeps no digit, and otherwise what those it
keeps stand for. -/
theorem stol_kept (hlo : -2 ^ 63 ≤ e.value) (hhi : e.value < 2 ^ 63) :
    stol (e.minus ++ e.kept) =
      if e.kept = [] then .error .exception else .ok (e.signed e.kept) := by
  by_cases hkept : e.kept = []
  · rw [if_pos hkept, hkept, minus]
    split
    · rfl
    · rfl
  have hall : e.kept.all isDigit = true := by
    have hdigits := List.all_eq_true.1 e.all_isDigit
    rw [kept, List.all_eq_true]
    split
    · exact hdigits
    · exact fun c hc => hdigits c (List.mem_of_mem_tail hc)
  have hsigned : integerValue (e.minus ++ e.kept) = e.signed e.kept := by
    rw [minus, signed]
    split
    · rfl
    · have hhead : e.kept.head? ≠ some 45 := by
        intro hhead
        exact absurd (List.all_eq_true.1 hall 45 (List.mem_of_mem_head? hhead)) (by decide)
      rw [List.nil_append, integerValue, if_neg hhead]
  have hdigits : IsDigits (e.minus ++ e.kept) := by
    refine ⟨e.kept, ?_, hkept, hall⟩
    rw [minus]
    split
    · exact .inr rfl
    · exact .inl rfl
  rw [if_neg hkept, ← hsigned]
  refine hdigits.stol_eq ?_ ?_
  · rw [hsigned]
    exact (e.signed_kept_bounds hlo hhi).1
  · rw [hsigned]
    exact (e.signed_kept_bounds hlo hhi).2

/-- **Nothing to lose**: a plus behind the mark, or a zero in front of other digits. -/
def Keeps : Prop := e.sign = some 43 ∨ (e.digits.head? = some 48 ∧ 1 < e.digits.length)

/-- The exponent computed is the one written just if there is nothing to lose. -/
theorem kept_iff : e.kept ≠ [] ∧ e.signed e.kept = e.value ↔ e.Keeps := by
  obtain ⟨d, ds, hds⟩ := List.exists_cons_of_ne_nil e.ne_nil
  have hd : isDigit d = true := List.all_eq_true.1 e.all_isDigit d (by simp [hds])
  rw [value, Keeps, kept]
  by_cases hplus : e.sign = some 43
  · rw [if_pos hplus]
    exact iff_of_true ⟨e.ne_nil, rfl⟩ (.inl hplus)
  · have hvalue : e.signed ds = e.signed (d :: ds) ↔ d = 48 := by
      rw [← digitsValue_tail_eq_iff ds hd, signed, signed]
      split
      · omega
      · omega
    rw [if_neg hplus, hds, List.tail_cons, hvalue, List.head?_cons, Option.some.injEq,
      List.length_cons, or_iff_right hplus, and_comm]
    exact and_congr_right fun _ => by
      rw [← List.length_pos_iff]
      omega

end ExponentText

/-! ## Number texts -/

/-- The double of a mantissa: that of its text with a fraction, and of its integer without. -/
def NumberText.double (doubles : Doubles Double) (n : NumberText) : Option Double :=
  if n.fraction = none then some (doubles.ofLong (integerValue n.integer))
  else doubles.stod n.mantissa

/-- **What is written**: the integer, if there is neither fraction nor exponent; and otherwise the
double of the mantissa times the power of ten that the exponent says. -/
def NumberText.Writes (doubles : Doubles Double) (n : NumberText) (v : JSON Double) : Prop :=
  if n.fraction = none ∧ n.exponent = none then v = .integral (integerValue n.integer)
  else ∃ m ∈ n.double doubles, v = .floating (doubles.mul m (doubles.pow10 n.exponentValue))

/-- **A number text is scanned**: it is read without an error and without an exception, up to the
character behind it, with the exponent that is written, as what is written. -/
def ScansNumber (doubles : Doubles Double) (status : CrustStatus) (n : NumberText)
    (after : Bytes) : Prop :=
  ∃ v, parseNumber doubles status (n.text ++ after) = .ok (v, status, after) ∧
    exponentOf (n.text ++ after) = .ok n.exponentValue ∧ n.Writes doubles v

/-- What the text of a mantissa is read as, by the double or the `long` it is. -/
def readMantissa (doubles : Doubles Double) (val : Bytes) (ofDouble : Double → JSON Double)
    (ofLong : ℤ → JSON Double) : Except Fault (JSON Double) :=
  if 46 ∈ val then
    match doubles.stod val with
    | none => .error .exception
    | some x => .ok (ofDouble x)
  else stol val >>= fun i => .ok (ofLong i)

section

variable {doubles : Doubles Double} {status : CrustStatus}

theorem plainNumber_of_ends {c : UInt8} (hc : endsNumber c = true) (val mem : Bytes) :
    plainNumber doubles status val c mem =
      readMantissa doubles val (fun x => .floating (doubles.mul x (doubles.pow10 0))) .integral >>=
        fun v => .ok (v, status, c :: mem) := by
  rw [plainNumber, readMantissa, if_neg (by simp [hc])]
  by_cases hdot : 46 ∈ val
  · rw [if_pos hdot, if_pos hdot]
    cases doubles.stod val <;> rfl
  · rw [if_neg hdot, if_neg hdot]
    cases stol val <;> rfl

theorem exponentNumber_of_ends {c : UInt8} (hc : endsNumber c = true) (val exp mem : Bytes) :
    exponentNumber doubles status val exp c mem = stol exp >>= fun e =>
      readMantissa doubles val (fun x => .floating (doubles.mul x (doubles.pow10 e)))
          (fun i => .floating (doubles.mul (doubles.ofLong i) (doubles.pow10 e))) >>=
        fun v => .ok (v, status, c :: mem) := by
  rw [exponentNumber, if_neg (by simp [hc])]
  refine congrArg (stol exp >>= ·) (funext fun e => ?_)
  rw [readMantissa]
  by_cases hdot : 46 ∈ val
  · rw [if_pos hdot, if_pos hdot]
    cases doubles.stod val <;> rfl
  · rw [if_neg hdot, if_neg hdot]
    cases stol val <;> rfl

namespace NumberText

variable {n : NumberText} (hfits : n.FitsLong) (ofDouble : Double → JSON Double)
  (ofLong : ℤ → JSON Double)

include hfits

/-- Without a fraction the mantissa is the integer written… -/
theorem readMantissa_of_none (hf : n.fraction = none) :
    readMantissa doubles n.mantissa ofDouble ofLong = .ok (ofLong (integerValue n.integer)) := by
  have hm : n.mantissa = n.integer := by rw [mantissa, hf, Option.elim_none, List.append_nil]
  rw [readMantissa, if_neg fun hdot => n.dot_mem_mantissa.1 hdot hf, hm,
    n.isDigits.stol_eq hfits.1.1 hfits.1.2]
  rfl

omit hfits in
/-- …and with one it is the double of its text. -/
theorem readMantissa_of_some (hf : n.fraction ≠ none) {v : JSON Double}
    (h : readMantissa doubles n.mantissa ofDouble ofLong = .ok v) :
    ∃ m ∈ n.double doubles, v = ofDouble m := by
  rw [readMantissa, if_pos (n.dot_mem_mantissa.2 hf)] at h
  rw [double, if_neg hf]
  cases hstod : doubles.stod n.mantissa with
  | none =>
    rw [hstod] at h
    cases h
  | some m =>
    rw [hstod] at h
    exact ⟨m, rfl, (Except.ok.inj h).symm⟩

/-- It is read if `std::stod` takes it, with a fraction. -/
theorem readMantissa_ok_iff :
    (∃ v, readMantissa doubles n.mantissa ofDouble ofLong = .ok v) ↔
      (n.fraction ≠ none → (doubles.stod n.mantissa).isSome) := by
  by_cases hf : n.fraction = none
  · exact iff_of_true ⟨_, readMantissa_of_none hfits _ _ hf⟩ fun h => absurd hf h
  · rw [readMantissa, if_pos (n.dot_mem_mantissa.2 hf), forall_prop_of_true hf]
    cases doubles.stod n.mantissa with
    | none => simp
    | some x => simp

end NumberText

section Scans

variable {n : NumberText} (hfits : n.FitsLong) {c : UInt8} {r : Bytes} (hc : endsNumber c = true)

include hfits hc

theorem scansNumber_iff_of_none (he : n.exponent = none) :
    ScansNumber doubles status n (c :: r) ↔
      (n.fraction ≠ none → (doubles.stod n.mantissa).isSome) := by
  have htext : n.text ++ c :: r = n.mantissa ++ c :: r := by
    rw [NumberText.text, he, Option.elim_none, List.append_nil]
  have hvalue : n.exponentValue = 0 := by rw [NumberText.exponentValue, he, Option.elim_none]
  rw [ScansNumber, exponentOf, parseNumber_eq, htext,
    scanWhile_append n.all_isNumberChar_mantissa (isNumberChar_of_endsNumber hc)]
  change (∃ v, (if c = 69 ∨ c = 101 then _ else _) = _ ∧
    (if c = 69 ∨ c = 101 then _ else _) = _ ∧ _) ↔ _
  simp only [if_neg (endsNumber_ne hc), plainNumber_of_ends hc, hvalue]
  constructor
  · rintro ⟨v, hv, -⟩
    obtain ⟨v', hv', -⟩ := bind_eq_ok.1 hv
    exact (NumberText.readMantissa_ok_iff hfits _ _).1 ⟨v', hv'⟩
  · intro hstod
    obtain ⟨v, hv⟩ := (NumberText.readMantissa_ok_iff hfits _ _).2 hstod
    refine ⟨v, by rw [hv]; rfl, trivial, ?_⟩
    rw [NumberText.Writes]
    by_cases hf : n.fraction = none
    · rw [NumberText.readMantissa_of_none hfits _ _ hf] at hv
      rw [if_pos ⟨hf, he⟩]
      exact (Except.ok.inj hv).symm
    · rw [if_neg fun h => hf h.1, hvalue]
      exact NumberText.readMantissa_of_some _ _ hf hv

theorem scansNumber_iff_of_some {e : ExponentText} (he : n.exponent = some e) :
    ScansNumber doubles status n (c :: r) ↔
      (n.fraction ≠ none → (doubles.stod n.mantissa).isSome) ∧ e.Keeps := by
  have htext : n.text ++ c :: r = n.mantissa ++ e.mark :: (e.behind ++ c :: r) := by
    rw [NumberText.text, he, Option.elim_some, List.append_assoc, List.cons_append]
  have hvalue : n.exponentValue = e.value := by
    rw [NumberText.exponentValue, he, Option.elim_some]
  have hmark : isNumberChar e.mark = false := by
    rcases e.mark_eq with hmark | hmark
    · rw [hmark]; rfl
    · rw [hmark]; rfl
  have hdigit : isDigit c = false := by
    by_contra hdigit
    have hnumber := isNumberChar_of_isDigit (Bool.eq_true_of_not_eq_false hdigit)
    rw [isNumberChar_of_endsNumber hc] at hnumber
    cases hnumber
  have hlo := hvalue ▸ hfits.2.1
  have hhi := hvalue ▸ hfits.2.2
  rw [ScansNumber, exponentOf, parseNumber_eq, htext,
    scanWhile_append n.all_isNumberChar_mantissa hmark]
  change (∃ v, (if e.mark = 69 ∨ e.mark = 101 then _ else _) = _ ∧
    (if e.mark = 69 ∨ e.mark = 101 then _ else _) = _ ∧ _) ↔ _
  simp only [if_pos e.mark_eq, e.scanExponent_behind hdigit, hvalue]
  change (∃ v, exponentNumber doubles status n.mantissa (e.minus ++ e.kept) c r = _ ∧
    stol (e.minus ++ e.kept) = _ ∧ _) ↔ _
  rw [exponentNumber_of_ends hc, e.stol_kept hlo hhi]
  constructor
  · rintro ⟨v, hv, hexp, -⟩
    split at hexp
    · cases hexp
    rename_i hkept
    obtain ⟨exp, -, hv⟩ := bind_eq_ok.1 hv
    obtain ⟨v', hv', -⟩ := bind_eq_ok.1 hv
    exact ⟨(NumberText.readMantissa_ok_iff hfits _ _).1 ⟨v', hv'⟩,
      e.kept_iff.1 ⟨hkept, Except.ok.inj hexp⟩⟩
  · rintro ⟨hstod, hkeeps⟩
    obtain ⟨hkept, hsigned⟩ := e.kept_iff.2 hkeeps
    rw [if_neg hkept, hsigned]
    obtain ⟨v, hv⟩ := (NumberText.readMantissa_ok_iff hfits _ _).2 hstod
    refine ⟨v, ?_, rfl, ?_⟩
    · change (readMantissa doubles n.mantissa _ _ >>= _) = _
      rw [hv]
      rfl
    · have hsome : ¬ (n.fraction = none ∧ n.exponent = none) := fun h => nomatch he ▸ h.2
      rw [← hvalue] at hv
      rw [NumberText.Writes, if_neg hsome]
      by_cases hf : n.fraction = none
      · rw [NumberText.readMantissa_of_none hfits _ _ hf] at hv
        rw [NumberText.double, if_pos hf]
        exact ⟨_, rfl, (Except.ok.inj hv).symm⟩
      · exact NumberText.readMantissa_of_some _ _ hf hv

end Scans

/-- **A number text is scanned** just if `std::stod` takes its mantissa, where that has a fraction,
and its exponent has nothing to lose. -/
theorem scansNumber_iff {n : NumberText} (hfits : n.FitsLong) {after : Bytes}
    (hafter : EndsNumber after) : ScansNumber doubles status n after ↔
      (n.fraction ≠ none → (doubles.stod n.mantissa).isSome) ∧ ∀ e ∈ n.exponent, e.Keeps := by
  obtain ⟨c, r, rfl, hc⟩ := hafter
  cases he : n.exponent with
  | none => rw [scansNumber_iff_of_none hfits hc he]; simp
  | some e => rw [scansNumber_iff_of_some hfits hc he]; simp

end

/-- The number text `-2.5e+07`. -/
def plusSeven : NumberText where
  integer := [45, 50]
  fraction := some [53]
  exponent := some
    { mark := 101
      sign := some 43
      digits := [48, 55]
      mark_eq := .inr rfl
      sign_eq := by simp
      ne_nil := by simp
      all_isDigit := rfl }
  isDigits := ⟨[50], .inr rfl, by simp, rfl⟩
  fraction_isDigits := by
    rintro ds ⟨⟩
    exact ⟨by simp, rfl⟩

/-- It is scanned, in front of a comma. -/
theorem scansNumber_plusSeven : ScansNumber plainDoubles .success plusSeven [44] :=
  (scansNumber_iff (n := plusSeven) (by decide) ⟨44, [], rfl, rfl⟩).2
    ⟨fun _ => rfl, by rintro e ⟨⟩; exact .inl rfl⟩

/-- The number text `1e5`. -/
def oneFive : NumberText where
  integer := [49]
  fraction := none
  exponent := some
    { mark := 101
      sign := none
      digits := [53]
      mark_eq := .inr rfl
      sign_eq := by simp
      ne_nil := by simp
      all_isDigit := rfl }
  isDigits := ⟨[49], .inl rfl, by simp, rfl⟩
  fraction_isDigits := by simp

/-- It makes `std::stol` throw: no digit is left for it. -/
theorem not_scansNumber : ¬ ∀ (doubles : Doubles Unit) (status : CrustStatus) (n : NumberText),
    n.FitsLong → ∀ after, EndsNumber after → ScansNumber doubles status n after := by
  intro h
  obtain ⟨v, hv, -⟩ := h plainDoubles .success oneFive (by decide) [44] ⟨44, [], rfl, rfl⟩
  have hthrows : parseNumber plainDoubles .success (oneFive.text ++ [44]) = .error .exception := rfl
  rw [hthrows] at hv
  cases hv

end Dcap.JSON
