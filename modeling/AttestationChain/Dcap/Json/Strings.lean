import AttestationChain.Dcap.Json.Acceptance
import AttestationChain.Machinery.JsonText

/-!
# Dcap/Json/Strings — what the parser keeps of a string

A string that is spelled by itself is kept as it is, and `\u` stays as it is spelled.  What
`ToString` makes of the rest is longer than the string, since it escapes what the parser unescaped
(`chars_literal`).  A tagged string is a hash or a buffer, which comes out in hexadecimal
(`toString_cases`).  So a string reads back as itself just if it is spelled by itself and without a
tag (`toString_eq_iff`).
-/

namespace Dcap.JSON

open JsonText (Chars skipWs)

variable {Double : Type}

/-! ## One string -/

/-- **A string spelled by itself**: character by character, or with a slash that is escaped. -/
inductive Plain : List Char → List Char → List Char → Prop
  | close {r} : Plain ('"' :: r) [] r
  | char {c s v r} (hc : ' ' ≤ c) (hquote : c ≠ '"') (hescape : c ≠ '\\') (h : Plain s v r) :
      Plain (c :: s) (c :: v) r
  | slash {s v r} (h : Plain s v r) : Plain ('\\' :: '/' :: s) ('/' :: v) r

theorem Literal.unescaped {p s val r : Bytes} (hp : ∀ b ∈ p, Unescaped b) (h : Literal s val r) :
    Literal (p ++ s) (p ++ val) r := by
  induction p with
  | nil => exact h
  | cons b p ih =>
    obtain ⟨hle, hquote, hescape⟩ := hp b (by simp)
    exact .char hle hquote hescape (ih fun d hd => hp d (by simp [hd]))

/-- A character that stands in a string by itself. -/
theorem unescaped_of_char {c : Char} (hc : ' ' ≤ c) (hquote : c ≠ '"') (hescape : c ≠ '\\') :
    ∀ b ∈ String.utf8EncodeChar c, Unescaped b := by
  intro b hb
  have hspace : 32 ≤ c.toNat := hc
  by_cases hascii : b < 128
  · have hnat := toNat_of_mem_utf8EncodeChar hb hascii
    refine ⟨?_, ?_, ?_⟩
    · rw [UInt8.le_iff_toNat_le]
      exact hnat ▸ hspace
    · rintro rfl
      exact hquote (Char.toNat_inj.1 hnat)
    · rintro rfl
      exact hescape (Char.toNat_inj.1 hnat)
  · have hhigh : ∀ d : UInt8, d < 128 → b ≠ d := by
      rintro d hd rfl
      exact hascii hd
    refine ⟨UInt8.le_trans (by decide) (UInt8.not_lt.1 hascii), hhigh 34 (by decide),
      hhigh 92 (by decide)⟩

/-- A hexadecimal digit is one byte, and one of the parser's digits. -/
theorem utf8_hexDigit {a : Char} {n : ℕ} (h : JsonText.hexDigit a = some n) (s : List Char) :
    ∃ b, utf8 (a :: s) = b :: utf8 s ∧ isHexDigit b = true ∧ Unescaped b := by
  have hrange : 48 ≤ a.toNat ∧ a.toNat ≤ 57 ∨ 97 ≤ a.toNat ∧ a.toNat ≤ 102 ∨
      65 ≤ a.toNat ∧ a.toNat ≤ 70 := by
    rw [JsonText.hexDigit] at h
    split_ifs at h with h₁ h₂ h₃
    · exact .inl h₁
    · exact .inr (.inl h₂)
    · exact .inr (.inr h₃)
  have hb : a.toNat.toUInt8.toNat = a.toNat := by
    rw [UInt8.toNat_ofNat', Nat.mod_eq_of_lt (by omega)]
  refine ⟨a.toNat.toUInt8, ?_, ?_, ?_, ?_, ?_⟩
  · rw [utf8_cons, utf8EncodeChar_ascii (by omega), List.singleton_append]
  · simp only [isHexDigit, Bool.or_eq_true, Bool.and_eq_true, decide_eq_true_eq,
      UInt8.le_iff_toNat_le, hb, UInt8.reduceToNat]
    omega
  · rw [UInt8.le_iff_toNat_le, hb]
    change 32 ≤ a.toNat
    omega
  · intro heq
    rw [heq] at hb
    have : 34 = a.toNat := hb
    omega
  · intro heq
    rw [heq] at hb
    have : 92 = a.toNat := hb
    omega

theorem hexDigits_of_codeUnit {a₁ a₂ a₃ a₄ : Char} {n : ℕ}
    (h : JsonText.codeUnit a₁ a₂ a₃ a₄ = some n) (s : List Char) : ∃ h₁ h₂ h₃ h₄,
      utf8 (a₁ :: a₂ :: a₃ :: a₄ :: s) = h₁ :: h₂ :: h₃ :: h₄ :: utf8 s ∧
      [h₁, h₂, h₃, h₄].all isHexDigit = true ∧
      ∀ t, escaped (92 :: 117 :: h₁ :: h₂ :: h₃ :: h₄ :: t) =
        92 :: 92 :: 117 :: h₁ :: h₂ :: h₃ :: h₄ :: escaped t := by
  simp only [JsonText.codeUnit, Option.bind_eq_bind, Option.bind_eq_some_iff] at h
  obtain ⟨n₁, hn₁, n₂, hn₂, n₃, hn₃, n₄, hn₄, -⟩ := h
  obtain ⟨h₄, heq₄, hdigit₄, hplain₄⟩ := utf8_hexDigit hn₄ s
  obtain ⟨h₃, heq₃, hdigit₃, hplain₃⟩ := utf8_hexDigit hn₃ (a₄ :: s)
  obtain ⟨h₂, heq₂, hdigit₂, hplain₂⟩ := utf8_hexDigit hn₂ (a₃ :: a₄ :: s)
  obtain ⟨h₁, heq₁, hdigit₁, hplain₁⟩ := utf8_hexDigit hn₁ (a₂ :: a₃ :: a₄ :: s)
  refine ⟨h₁, h₂, h₃, h₄, by rw [heq₁, heq₂, heq₃, heq₄], ?_, fun t => ?_⟩
  · simp [hdigit₁, hdigit₂, hdigit₃, hdigit₄]
  · have hbackslash : escapeByte 92 = [92, 92] := rfl
    have hu : escapeByte 117 = [117] := rfl
    simp only [escaped_cons, hbackslash, hu, escapeByte_unescaped hplain₁,
      escapeByte_unescaped hplain₂, escapeByte_unescaped hplain₃, escapeByte_unescaped hplain₄,
      List.cons_append, List.nil_append]

theorem length_utf8_cons_le (c : Char) (s : List Char) :
    (utf8 (c :: s)).length ≤ 4 + (utf8 s).length := by
  rw [utf8_cons, List.length_append, String.length_utf8EncodeChar]
  have := c.utf8Size_le_four
  omega

theorem length_utf8_le {s v r : List Char} {val : Bytes}
    (h : Plain s v r ∧ val = utf8 v ∧ escaped val = val ∨
      ¬ Plain s v r ∧ (utf8 v).length < (escaped val).length) :
    (utf8 v).length ≤ (escaped val).length := by
  rcases h with ⟨-, rfl, hesc⟩ | ⟨-, hlen⟩
  · rw [hesc]
  · exact hlen.le

/-- What an escape of two characters stands for, on both sides. -/
theorem escape_cases {e c : Char} (h : JsonText.escapeOf e = some c) (s v : List Char) : ∃ b,
    utf8 (e :: s) = b :: utf8 s ∧ b ∈ ascii "\"\\/bfnrt" ∧ utf8 (c :: v) = unescape b :: utf8 v ∧
      unescape b ≠ 36 ∧ (e = '/' ∧ c = '/' ∧ escapeByte (unescape b) = [unescape b] ∨
        e ≠ '/' ∧ (escapeByte (unescape b)).length = 2) := by
  unfold JsonText.escapeOf at h
  split at h
  all_goals first
    | exact ⟨_, rfl, by decide, by cases h; rfl, by decide, .inr ⟨by decide, rfl⟩⟩
    | exact ⟨_, rfl, by decide, by cases h; rfl, by decide, .inl ⟨rfl, by cases h; rfl, rfl⟩⟩
    | cases h

/-- **A code unit is kept as it is spelled**, so escaping it makes it longer by a backslash. -/
theorem literal_unicode {a₁ a₂ a₃ a₄ : Char} {n : ℕ} {s : List Char} {val r : Bytes}
    (h : JsonText.codeUnit a₁ a₂ a₃ a₄ = some n) (hval : Literal (utf8 s) val r) : ∃ val',
    Literal (utf8 ('\\' :: 'u' :: a₁ :: a₂ :: a₃ :: a₄ :: s)) val' r ∧ val'.head? = some 92 ∧
      (escaped val').length = (escaped val).length + 7 := by
  obtain ⟨h₁, h₂, h₃, h₄, hs, hdigits, hesc⟩ := hexDigits_of_codeUnit h s
  refine ⟨92 :: 117 :: h₁ :: h₂ :: h₃ :: h₄ :: val, ?_, rfl, by simp [hesc]⟩
  change Literal (92 :: 117 :: utf8 (a₁ :: a₂ :: a₃ :: a₄ :: s)) _ _
  rw [hs]
  exact .unicode hdigits hval

/-- The one escape of a string spelled by itself is that of a slash. -/
theorem Plain.eq_slash {e : Char} {s v r : List Char} (h : Plain ('\\' :: e :: s) v r) :
    e = '/' := by
  cases h with
  | char _ _ hescape _ => exact (hescape rfl).elim
  | slash h => rfl

/-- **What is kept of a string**: itself if it is spelled by itself, and else something that gets
longer when it is escaped. -/
theorem chars_literal {s v r : List Char} (h : Chars s v r) : ∃ val,
    Literal (utf8 s) val (utf8 r) ∧ (val.head? = some 36 → (utf8 v).head? = some 36) ∧
      (Plain s v r ∧ val = utf8 v ∧ escaped val = val ∨
        ¬ Plain s v r ∧ (utf8 v).length < (escaped val).length) := by
  induction h with
  | close => exact ⟨[], .close, id, .inl ⟨.close, rfl, rfl⟩⟩
  | @plain c s v r hc hquote hescape h ih =>
    obtain ⟨val, hval, -, ih⟩ := ih
    have hun := unescaped_of_char hc hquote hescape
    have hne : String.utf8EncodeChar c ≠ [] := by
      rw [← List.length_pos_iff, String.length_utf8EncodeChar]
      exact c.utf8Size_pos
    refine ⟨String.utf8EncodeChar c ++ val, hval.unescaped hun, ?_, ?_⟩
    · rw [utf8_cons, List.head?_append_of_ne_nil _ hne, List.head?_append_of_ne_nil _ hne]
      exact id
    · rw [escaped_append, escaped_unescaped hun, utf8_cons]
      rcases ih with ⟨hplain, hval, hesc⟩ | ⟨hplain, hlen⟩
      · exact .inl ⟨.char hc hquote hescape hplain, by rw [hval], by rw [hesc]⟩
      · refine .inr ⟨?_, by simpa using hlen⟩
        intro h
        cases h with
        | char _ _ _ h => exact hplain h
  | @escape e c s v r he h ih =>
    obtain ⟨val, hval, -, ih⟩ := ih
    obtain ⟨b, hb, hmem, hc, hne, hslash⟩ := escape_cases he s v
    refine ⟨unescape b :: val, ?_, fun h => absurd (Option.some.inj h) hne, ?_⟩
    · change Literal (92 :: utf8 (e :: s)) _ _
      rw [hb]
      exact .escape hmem hval
    · rw [escaped_cons, hc]
      rcases hslash with ⟨rfl, rfl, hself⟩ | ⟨hne, htwo⟩
      · rw [hself]
        rcases ih with ⟨hplain, hval, hesc⟩ | ⟨hplain, hlen⟩
        · exact .inl ⟨.slash hplain, by rw [hval], by rw [hesc, List.singleton_append]⟩
        · refine .inr ⟨?_, by simpa using hlen⟩
          intro h
          cases h with
          | slash h => exact hplain h
      · refine .inr ⟨fun h => hne h.eq_slash, ?_⟩
        have hkept := length_utf8_le ih
        rw [List.length_append, List.length_cons, htwo]
        omega
  | @unicode a₁ a₂ a₃ a₄ c s v r hc h ih =>
    obtain ⟨val, hval, -, ih⟩ := ih
    obtain ⟨val', hval', hhead, hlen⟩ := literal_unicode hc hval
    refine ⟨val', hval', fun h => absurd (hhead.symm.trans h) (by decide),
      .inr ⟨fun h => absurd h.eq_slash (by decide), ?_⟩⟩
    have hle := length_utf8_cons_le c v
    have hkept := length_utf8_le ih
    omega
  | @surrogates a₁ a₂ a₃ a₄ b₁ b₂ b₃ b₄ hi lo c s v r hhi hlo hhi' hlo' hc h ih =>
    obtain ⟨val, hval, -, ih⟩ := ih
    obtain ⟨low, hlow, -, hlen⟩ := literal_unicode hlo hval
    obtain ⟨val', hval', hhead, hlen'⟩ := literal_unicode hhi hlow
    refine ⟨val', hval', fun h => absurd (hhead.symm.trans h) (by decide),
      .inr ⟨fun h => absurd h.eq_slash (by decide), ?_⟩⟩
    have hle := length_utf8_cons_le c v
    have hkept := length_utf8_le ih
    omega

theorem hexstring_head (block : Bytes) : (hexstring block).head? ≠ some 36 := by
  intro h
  have hno : ∀ c ∈ hextable, c ≠ 36 := forall_mem_of_all (by decide)
  exact hno 36 (mem_hexstring (List.mem_of_mem_head? h)) rfl

/-- A string is tagged and spelled in hexadecimal, or it is a string. -/
theorem toString_cases {val : Bytes} {x : JSON Double} (h : stringValue val = .ok x) :
    (Tagged val ∧ val.head? = some 36 ∧ ∃ block, x.toString = .ok (hexstring block)) ∨
      (¬ Tagged val ∧ x.toString = jsonEscape val) := by
  have hhead : ∀ {tag : Bytes}, tag.head? = some 36 → tag <+: val → val.head? = some 36 := by
    rintro tag htag ⟨t, rfl⟩
    rw [List.head?_append, htag]
    rfl
  rcases @stringValue_cases Double val with
    ⟨hhash, heven, block, -, h'⟩ | ⟨hbuff, block, h'⟩ | ⟨htag, h'⟩
  · rw [h'] at h
    split_ifs at h
    cases h
    exact .inl ⟨.inl ⟨hhash, heven⟩, hhead rfl hhash, _, rfl⟩
  · rw [h'] at h
    split_ifs at h
    cases h
    exact .inl ⟨.inr hbuff, hhead rfl hbuff, _, rfl⟩
  · rw [h'] at h
    cases h
    exact .inr ⟨htag, rfl⟩

theorem escaped_head {val : Bytes} (h : (escaped val).head? = some 36) : val.head? = some 36 := by
  cases val with
  | nil => cases h
  | cons c val =>
    rw [escaped_cons, escapeByte] at h
    split_ifs at h
    all_goals first
      | exact h
      | exact absurd (Option.some.inj h) (by decide)

/-- **A name that is not its key is longer**, unless it loses the first character of a tag. -/
def StepsUp (key name : Bytes) : Prop :=
  (name.head? = some 36 → key.head? = some 36) ∧
    ((key.head? = some 36 → name.head? = some 36) → name = key ∨ key.length < name.length)

section Read

variable {s v r : List Char} {val : Bytes} {x : JSON Double}
  (hhead : val.head? = some 36 → (utf8 v).head? = some 36)
  (hkept : Plain s v r ∧ val = utf8 v ∧ escaped val = val ∨
    ¬ Plain s v r ∧ (utf8 v).length < (escaped val).length)
  (hx : stringValue val = .ok x)

include hhead hkept hx

/-- **A value is read back** if it stands for itself and is short enough. -/
theorem toString_eq_iff : x.toString = .ok (utf8 v) ↔
    Plain s v r ∧ ¬ Tagged (utf8 v) ∧ (utf8 v).length < uint32Size := by
  rcases toString_cases hx with ⟨htag, htag', block, hblock⟩ | ⟨htag, hstring⟩
  · rw [hblock]
    refine iff_of_false (fun heq => ?_) fun ⟨hplain, hnot, _⟩ => ?_
    · have := hhead htag'
      rw [← Except.ok.inj heq] at this
      exact hexstring_head block this
    · rcases hkept with ⟨-, hval, -⟩ | ⟨hno, -⟩
      · exact hnot (hval ▸ htag)
      · exact hno hplain
  · rw [hstring, jsonEscape]
    rcases hkept with ⟨hplain, hval, hesc⟩ | ⟨hplain, hlen⟩
    · rw [hesc, hval, and_iff_right hplain, and_iff_right (hval ▸ htag)]
      split_ifs with hlen
      · exact iff_of_true rfl hlen
      · exact iff_of_false (by simp) hlen
    · refine iff_of_false (fun heq => ?_) fun h => hplain h.1
      split_ifs at heq with hshort
      rw [← Except.ok.inj heq] at hlen
      exact lt_irrefl _ hlen

variable {name : Bytes} (hname : x.toString = .ok name)

include hname

/-- **A key is read back** if it stands for itself. -/
theorem name_eq_iff : name = utf8 v ↔ Plain s v r ∧ ¬ Tagged (utf8 v) := by
  have hshort : Tagged val ∨ val.length < uint32Size := (toString_ok_iff hx).1 ⟨name, hname⟩
  have hiff : x.toString = .ok (utf8 v) ↔ name = utf8 v := by
    rw [hname, Except.ok.injEq]
  rw [← hiff, toString_eq_iff hhead hkept hx]
  refine and_congr_right fun hplain => and_iff_left_of_imp fun htag => ?_
  rcases hkept with ⟨-, hval, -⟩ | ⟨hno, -⟩
  · rw [← hval] at htag ⊢
    exact hshort.resolve_left htag
  · exact (hno hplain).elim

theorem stepsUp_name : StepsUp (utf8 v) name := by
  rcases toString_cases hx with ⟨-, htag', block, hblock⟩ | ⟨-, hstring⟩
  · rw [hname] at hblock
    cases hblock
    exact ⟨fun h => (hexstring_head block h).elim,
      fun h => (hexstring_head block (h (hhead htag'))).elim⟩
  · rw [hstring, jsonEscape] at hname
    split_ifs at hname
    cases hname
    refine ⟨fun h => hhead (escaped_head h), fun _ => ?_⟩
    rcases hkept with ⟨-, hval, hesc⟩ | ⟨-, hlen⟩
    · exact .inl (hesc.trans hval)
    · exact .inr hlen

end Read

end Dcap.JSON
