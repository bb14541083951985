import AttestationChain.Dcap.Json.Reads
import Mathlib.Data.List.TakeWhile

/-!
# Dcap/Json/Lexemes — what the parser makes of numbers and strings

Digits are read as the number they spell, if that fits a `long` and what follows ends it.  A string
is a hash, a buffer or a string by its tag and its length, and may have no value at all.
-/

namespace Dcap.JSON

variable {Double : Type} {doubles : Doubles Double}

/-! ## Numbers -/

/-- The number that digits spell. -/
def digitsValue (ds : Bytes) : ℕ := ds.foldl (fun n c => n * 10 + (c.toNat - 48)) 0

/-- The number that an integer spells. -/
def integerValue (w : Bytes) : ℤ :=
  if w.head? = some 45 then -(digitsValue w.tail : ℤ) else digitsValue w

/-- Digits, with or without a minus. -/
def IsDigits (w : Bytes) : Prop := ∃ ds, (w = ds ∨ w = 45 :: ds) ∧ ds ≠ [] ∧ ds.all isDigit = true

/-- Something follows that ends a number. -/
def EndsNumber (r : Bytes) : Prop := ∃ c r', r = c :: r' ∧ endsNumber c = true

theorem IsDigits.head {w : Bytes} (h : IsDigits w) :
    ∃ c w', w = c :: w' ∧ (isDigit c ∨ c = 45) := by
  obtain ⟨ds, rfl | rfl, hne, hds⟩ := h
  · obtain ⟨c, w', rfl⟩ := List.exists_cons_of_ne_nil hne
    exact ⟨c, w', rfl, .inl (List.all_eq_true.1 hds c (by simp))⟩
  · exact ⟨45, ds, rfl, .inr rfl⟩

theorem IsDigits.all_isNumberChar {w : Bytes} (h : IsDigits w) : w.all isNumberChar = true := by
  obtain ⟨ds, hw, -, hds⟩ := h
  have hall : ds.all isNumberChar = true := by
    rw [List.all_eq_true] at hds ⊢
    exact fun c hc => isNumberChar_of_isDigit (hds c hc)
  rcases hw with rfl | rfl
  · exact hall
  · rw [List.all_cons, hall]
    rfl

theorem IsDigits.dot_notMem {w : Bytes} (h : IsDigits w) : 46 ∉ w := by
  obtain ⟨ds, hw, -, hds⟩ := h
  rw [List.all_eq_true] at hds
  have hdot : 46 ∉ ds := fun hmem => absurd (hds 46 hmem) (by decide)
  rcases hw with rfl | rfl
  · exact hdot
  · rw [List.mem_cons, not_or]
    exact ⟨by decide, hdot⟩

theorem IsDigits.stol_eq {w : Bytes} (h : IsDigits w) (hlo : -2 ^ 63 ≤ integerValue w)
    (hhi : integerValue w < 2 ^ 63) : stol w = .ok (integerValue w) := by
  obtain ⟨ds, hw, hne, hds⟩ := h
  have htake : ds.takeWhile isDigit = ds := by
    rw [List.takeWhile_eq_self_iff]
    exact List.all_eq_true.1 hds
  have hdigits : (w.drop (if w.head? = some 45 then 1 else 0)).takeWhile isDigit = ds ∧
      integerValue w = if w.head? = some 45 then -(digitsValue ds : ℤ) else digitsValue ds := by
    rcases hw with rfl | rfl
    · have hminus : w.head? ≠ some 45 := by
        intro hhead
        exact absurd (List.all_eq_true.1 hds 45 (List.mem_of_mem_head? hhead)) (by decide)
      rw [if_neg hminus, if_neg hminus, integerValue, if_neg hminus, List.drop_zero]
      exact ⟨htake, rfl⟩
    · exact ⟨htake, rfl⟩
  rw [hdigits.2] at hlo hhi ⊢
  rw [stol, hdigits.1]
  rw [if_neg]
  · rfl
  · change ¬ (ds = [] ∨ (if w.head? = some 45 then -(digitsValue ds : ℤ) else digitsValue ds) < _ ∨
      _ ≤ (if w.head? = some 45 then -(digitsValue ds : ℤ) else digitsValue ds))
    simp only [hne, false_or, not_or, not_lt, not_le]
    exact ⟨hlo, hhi⟩

/-- **Digits are read** in front of what ends them. -/
theorem IsDigits.reads {w r : Bytes} (h : IsDigits w) (hlo : -2 ^ 63 ≤ integerValue w)
    (hhi : integerValue w < 2 ^ 63) (hr : EndsNumber r) :
    Reads doubles (w ++ r) (.integral (integerValue w)) r := by
  obtain ⟨c, r', rfl, hc⟩ := hr
  have hscan := scanWhile_append h.all_isNumberChar (isNumberChar_of_endsNumber hc) r'
  obtain ⟨d, w', rfl, hd⟩ := h.head
  have hws : consumeWs (d :: w' ++ c :: r') = .ok (d :: (w' ++ c :: r')) := by
    rw [List.cons_append, consumeWs, if_neg (by simp [isSpace_of_number hd])]
  exact .integral hws hd hscan hc h.dot_notMem (h.stol_eq hlo hhi)

/-- What `std::stol` returns fits a `long`. -/
theorem stol_range {s : Bytes} {i : ℤ} (h : stol s = .ok i) : -2 ^ 63 ≤ i ∧ i < 2 ^ 63 := by
  unfold stol at h
  extract_lets digits n j at h
  split at h
  · cases h
  · rename_i hno
    rw [not_or, not_or, not_lt, not_le] at hno
    exact Except.ok.inj h ▸ hno.2

theorem isDigit_toUInt8 {c : Char} (h : c.isDigit = true) :
    isDigit c.toNat.toUInt8 = true ∧ c.toNat.toUInt8.toNat = c.toNat := by
  rw [Char.isDigit_iff_toNat] at h
  have hle : c.toNat ≤ 57 := h.2
  have hbyte : c.toNat.toUInt8.toNat = c.toNat := by
    refine Nat.mod_eq_of_lt ?_
    change c.toNat < 256
    omega
  rw [isDigit, Bool.and_eq_true, decide_eq_true_eq, decide_eq_true_eq, UInt8.le_iff_toNat_le,
    UInt8.le_iff_toNat_le, hbyte]
  exact ⟨h, rfl⟩

/-- A number is written in digits that spell it. -/
theorem digits_repr (n : ℕ) : ascii n.repr ≠ [] ∧ (ascii n.repr).all isDigit = true ∧
    digitsValue (ascii n.repr) = n := by
  have hdigits : ∀ c ∈ Nat.toDigits 10 n, c.isDigit = true := fun c hc =>
    Nat.isDigit_of_mem_toDigits (by decide) (by decide) hc
  rw [ascii, Nat.toList_repr]
  refine ⟨by simp [Nat.toDigits_ne_nil], ?_, ?_⟩
  · rw [List.all_map, List.all_eq_true]
    exact fun c hc => (isDigit_toUInt8 (hdigits c hc)).1
  · calc digitsValue ((Nat.toDigits 10 n).map fun c => c.toNat.toUInt8)
        = Nat.ofDigitChars 10 (Nat.toDigits 10 n) 0 := by
          rw [Nat.ofDigitChars_eq_foldl, digitsValue, List.foldl_map]
          refine List.foldl_ext _ _ _ fun m c hc => ?_
          rw [(isDigit_toUInt8 (hdigits c hc)).2, Nat.mul_comm]
          rfl
      _ = n := Nat.ofDigitChars_ten_toDigits

theorem toDecimal_negSucc (n : ℕ) : toDecimal (Int.negSucc n) = 45 :: ascii n.succ.repr := by
  change ascii ("-" ++ n.succ.repr) = _
  rw [ascii, String.toList_append]
  rfl

/-- **An integer is written in digits that spell it.** -/
theorem isDigits_toDecimal (i : ℤ) : IsDigits (toDecimal i) ∧ integerValue (toDecimal i) = i := by
  cases i with
  | ofNat n =>
    obtain ⟨hne, hall, hval⟩ := digits_repr n
    change IsDigits (ascii n.repr) ∧ integerValue (ascii n.repr) = n
    have hminus : (ascii n.repr).head? ≠ some 45 := fun hhead =>
      absurd (List.all_eq_true.1 hall 45 (List.mem_of_mem_head? hhead)) (by decide)
    refine ⟨⟨_, .inl rfl, hne, hall⟩, ?_⟩
    rw [integerValue, if_neg hminus, hval]
  | negSucc n =>
    obtain ⟨hne, hall, hval⟩ := digits_repr n.succ
    rw [toDecimal_negSucc]
    refine ⟨⟨_, .inr rfl, hne, hall⟩, ?_⟩
    rw [integerValue, List.head?_cons, if_pos rfl, List.tail_cons, hval]
    rfl

/-! ## Strings -/

/-- A string that is read as a hash or as a buffer. -/
def Tagged (val : Bytes) : Prop := hashTag <+: val ∧ val.length % 2 = 0 ∨ buffTag <+: val

/-- A string that has a value: a hash has its 64 digits, and a buffer a number of them that is even,
or one. -/
def TagFits (val : Bytes) : Prop :=
  (hashTag <+: val → val.length % 2 = 0 → 70 ≤ val.length) ∧
    (buffTag <+: val → val.length % 2 = 0 ∨ val.length = 7)

theorem length_drop_tag (val : Bytes) : (val.drop hashTag.length).length = val.length - 6 ∧
    (val.drop buffTag.length).length = val.length - 6 :=
  ⟨List.length_drop, List.length_drop⟩

/-- What a string stands for, by its tag and its length. -/
theorem stringValue_cases (val : Bytes) :
    (hashTag <+: val ∧ val.length % 2 = 0 ∧ ∃ block, hexstringToBytes (val.drop 6) = some block ∧
      (stringValue val : Except Fault (JSON Double)) =
        if val.length < 70 then .error .outOfBounds else .ok (.hash (block.take 32))) ∨
    (buffTag <+: val ∧ ∃ block, (stringValue val : Except Fault (JSON Double)) =
        if val.length % 2 = 0 ∨ val.length = 7 then .ok (.buffer block) else .error .outOfBounds) ∨
    (¬ Tagged val ∧ (stringValue val : Except Fault (JSON Double)) = .ok (.string val)) := by
  by_cases hhash : hashTag <+: val
  · have hle := hhash.length_le
    have hlen := (length_drop_tag val).1
    change 6 ≤ val.length at hle
    rcases hblock : hexstringToBytes (val.drop hashTag.length) with _ | block
    · refine .inr (.inr ⟨?_, ?_⟩)
      · rintro (⟨-, heven⟩ | hbuff)
        · rw [hexstringToBytes, if_neg (by omega)] at hblock
          cases hblock
        · exact not_buffTag hhash hbuff
      · rw [stringValue, if_pos hhash, hblock]
    · obtain ⟨heven, hlength⟩ := length_hexstringToBytes hblock
      refine .inl ⟨hhash, by omega, block, hblock, ?_⟩
      rw [stringValue, if_pos hhash, hblock]
      change (if block.length < 32 then _ else _) = _
      by_cases hshort : val.length < 70
      · rw [if_pos hshort, if_pos (by omega)]
      · rw [if_neg hshort, if_neg (by omega)]
  by_cases hbuff : buffTag <+: val
  · have hle := hbuff.length_le
    have hlen := (length_drop_tag val).2
    change 6 ≤ val.length at hle
    rw [stringValue, if_neg hhash, if_pos hbuff]
    rcases hblock : hexstringToBytes (val.drop buffTag.length) with _ | block
    · have hodd : ¬ val.length % 2 = 0 := by
        intro heven
        rw [hexstringToBytes, if_neg (by omega)] at hblock
        cases hblock
      refine .inr (.inl ⟨hbuff, [], ?_⟩)
      change (if val.length = 7 then _ else _) = _
      simp only [hodd, false_or]
    · have heven := (length_hexstringToBytes hblock).1
      exact .inr (.inl ⟨hbuff, block, (if_pos (.inl (by omega))).symm⟩)
  · exact .inr (.inr ⟨by rintro (⟨h, -⟩ | h) <;> contradiction,
      stringValue_untagged ⟨hhash, hbuff⟩⟩)

/-- A string has a value if its tag fits. -/
theorem stringValue_ok_iff (val : Bytes) :
    (∃ v : JSON Double, stringValue val = .ok v) ↔ TagFits val := by
  rcases @stringValue_cases Double val with
    ⟨hhash, heven, block, -, h⟩ | ⟨hbuff, block, h⟩ | ⟨htag, h⟩
  · rw [h, TagFits]
    split_ifs with hshort
    · refine iff_of_false (by simp) fun hfits => ?_
      have := hfits.1 hhash heven
      omega
    · exact iff_of_true ⟨_, rfl⟩ ⟨fun _ _ => by omega, fun hbuff => (not_buffTag hhash hbuff).elim⟩
  · rw [h, TagFits]
    split_ifs with heven
    · exact iff_of_true ⟨_, rfl⟩ ⟨fun hhash => (not_buffTag hhash hbuff).elim, fun _ => heven⟩
    · exact iff_of_false (by simp) fun hfits => heven (hfits.2 hbuff)
  · rw [h, TagFits]
    rw [Tagged, not_or, not_and] at htag
    exact iff_of_true ⟨_, rfl⟩ ⟨fun hhash heven => (htag.1 hhash heven).elim,
      fun hbuff => (htag.2 hbuff).elim⟩

/-- A string is a key if it is tagged or short enough. -/
theorem toString_ok_iff {val : Bytes} {v : JSON Double} (h : stringValue val = .ok v) :
    (∃ name, v.toString = .ok name) ↔ Tagged val ∨ val.length < uint32Size := by
  rcases @stringValue_cases Double val with
    ⟨hhash, heven, block, -, h'⟩ | ⟨hbuff, block, h'⟩ | ⟨htag, h'⟩
  · rw [h'] at h
    split_ifs at h
    cases h
    exact iff_of_true ⟨_, rfl⟩ (.inl (.inl ⟨hhash, heven⟩))
  · rw [h'] at h
    split_ifs at h
    cases h
    exact iff_of_true ⟨_, rfl⟩ (.inl (.inr hbuff))
  · rw [h'] at h
    cases h
    change (∃ name, jsonEscape val = .ok name) ↔ _
    rw [jsonEscape, or_iff_right htag]
    split_ifs with hlen
    · exact iff_of_true ⟨_, rfl⟩ hlen
    · exact iff_of_false (by simp) hlen

end Dcap.JSON
