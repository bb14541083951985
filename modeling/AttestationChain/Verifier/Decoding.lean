import AttestationChain.Machinery.Hexadecimal
import AttestationChain.Verifier.Hex

/-!
# Verifier/Decoding — `decode_hex` against hexadecimal text

Where `decode_hex` decodes without a sign, it reads hexadecimal (`decodePairs_eq_some_iff`).  It is
not exact, though: a `+` in front of a digit is taken for a pair, and a text may make the walk slice
where it must not.  On a text that is not hexadecimal all depends on what the walk meets first: a
pair it cannot decode, and it fails as it should, or a slice it cannot make (`decodesExactly_iff`).
-/

namespace Verifier

open Hexadecimal

/-! ## Digits and pairs -/

/-- **The digits a spelling is made of**, in either case. -/
theorem toDigit_eq_some_iff (c : UInt8) (x : Fin 16) :
    toDigit c = some x.val ↔ lower c = digit x :=
  forall_byte (p := fun c => ∀ x : Fin 16, toDigit c = some x.val ↔ lower c = digit x)
    (by decide +kernel) c x

/-- A pair without a sign is the two digits of its byte. -/
theorem pairValue_eq_some_iff {a b v : UInt8} : pairValue a b = some v ∧ a ≠ 43 ↔
    lower a = digit (v.toNat / 16) ∧ lower b = digit (v.toNat % 16) := by
  have hv := v.toNat_lt
  constructor
  · rintro ⟨h, hsign⟩
    rw [pairValue, if_neg hsign] at h
    obtain ⟨x, hx, h⟩ := Option.bind_eq_some_iff.1 h
    obtain ⟨y, hy, rfl⟩ := Option.map_eq_some_iff.1 h
    have hx' := toDigit_lt hx
    have hy' := toDigit_lt hy
    have hvalue : (x * 16 + y).toUInt8.toNat = x * 16 + y :=
      UInt8.toNat_ofNat_of_lt' (show x * 16 + y < 256 by omega)
    have ha := (toDigit_eq_some_iff a ⟨x, hx'⟩).1 hx
    have hb := (toDigit_eq_some_iff b ⟨y, hy'⟩).1 hy
    rw [hvalue, show (x * 16 + y) / 16 = x by omega, show (x * 16 + y) % 16 = y by omega]
    exact ⟨ha, hb⟩
  · rintro ⟨ha, hb⟩
    have ha' := (toDigit_eq_some_iff a ⟨v.toNat / 16, by omega⟩).2 ha
    have hb' := (toDigit_eq_some_iff b ⟨v.toNat % 16, by omega⟩).2 hb
    have hsign : a ≠ 43 := by
      rintro rfl
      cases ha'
    refine ⟨?_, hsign⟩
    simp only at ha' hb'
    rw [pairValue, if_neg hsign, ha', hb', Option.bind_some, Option.map_some,
      show v.toNat / 16 * 16 + v.toNat % 16 = v.toNat by omega]
    simp

/-- **What the walk decodes without a sign** is spelled by what it decodes to. -/
theorem decodePairs_eq_some_iff {s bs : Bytes} :
    decodePairs s = some bs ∧ 43 ∉ s ↔ s.map lower = spell bs := by
  induction s using decodePairs.induct generalizing bs with
  | case1 =>
    cases bs with
    | nil => simp [decodePairs]
    | cons v bs => simp [decodePairs]
  | case2 c =>
    cases bs with
    | nil => simp [decodePairs]
    | cons v bs => simp [decodePairs]
  | case3 a b s ih =>
    constructor
    · rintro ⟨h, hsign⟩
      rw [decodePairs] at h
      obtain ⟨v, hv, h⟩ := Option.bind_eq_some_iff.1 h
      obtain ⟨vs, hvs, rfl⟩ := Option.map_eq_some_iff.1 h
      obtain ⟨ha, hb⟩ := pairValue_eq_some_iff.1 ⟨hv, fun h => hsign (by simp [h])⟩
      rw [List.map_cons, List.map_cons, ha, hb, spell_cons,
        ih.1 ⟨hvs, fun h => hsign (by simp [h])⟩]
    · intro h
      cases bs with
      | nil => cases h
      | cons v bs =>
        rw [List.map_cons, List.map_cons, spell_cons, List.cons.injEq, List.cons.injEq] at h
        obtain ⟨hv, ha⟩ := pairValue_eq_some_iff.2 ⟨h.1, h.2.1⟩
        obtain ⟨hvs, hsign⟩ := ih.2 h.2.2
        have hb : b ≠ 43 := by
          rintro rfl
          have hdigit := (toDigit_eq_some_iff 43 ⟨v.toNat % 16, Nat.mod_lt _ (by decide)⟩).2 h.2.1
          cases hdigit
        refine ⟨by rw [decodePairs, hv, hvs]; rfl, ?_⟩
        simp [Ne.symm ha, Ne.symm hb, hsign]

/-- A text has two characters for each byte it is decoded to. -/
theorem length_of_decodePairs {s bs : Bytes} (h : decodePairs s = some bs) :
    s.length = 2 * bs.length := by
  induction s using decodePairs.induct generalizing bs with
  | case1 => cases h; rfl
  | case2 c => cases h
  | case3 a b s ih =>
    rw [decodePairs] at h
    obtain ⟨v, hv, h⟩ := Option.bind_eq_some_iff.1 h
    obtain ⟨vs, hvs, rfl⟩ := Option.map_eq_some_iff.1 h
    rw [List.length_cons, List.length_cons, ih hvs, List.length_cons]
    omega

/-- **Hexadecimal text** is decoded to what it spells. -/
theorem decodeHex_of_isText {s : Bytes} (h : IsText s) : decodeHex s = .ok (.ok (unspell s)) :=
  decodeHex_eq_ok.2 (decodePairs_eq_some_iff.2 (spell_unspell h).symm).1

/-! ## Where the walk fails -/

/-- A byte that starts a character, or none at all: where a slice may end. -/
def StartsChar (s : Bytes) : Prop := ∀ c ∈ s.head?, c < 128 ∨ 192 ≤ c

/-- **A text the walk turns away**: behind pairs that it decodes there are two bytes that end a
character and are no pair. -/
def TurnedAway (s : Bytes) : Prop :=
  ∃ p a b t, s = p ++ a :: b :: t ∧ HexText p ∧ pairValue a b = none ∧ StartsChar t

theorem isCharBoundary_iff {s t : Bytes} {i : ℕ} (hi : i ≤ s.length) (hs : s.drop i = t) :
    isCharBoundary s i = true ↔ i = 0 ∨ StartsChar t := by
  have hget : s[i]? = t.head? := by rw [← List.head?_drop, hs]
  have hlen : t.length = s.length - i := by rw [← hs, List.length_drop]
  rw [isCharBoundary, hget, StartsChar]
  cases t with
  | nil =>
    have hend : i = s.length := by simp at hlen; omega
    simp [hend]
  | cons c t =>
    have hend : ¬ i = s.length := by simp at hlen; omega
    simp [hend]

/-- A text starts with a character. -/
theorem startsChar_utf8 (cs : List Char) : StartsChar (utf8 cs) := by
  have hhigh : ∀ x : UInt8, 192 ≤ x ||| 0xc0 ∧ 192 ≤ x ||| 0xe0 ∧ 192 ≤ x ||| 0xf0 :=
    forall_byte (by decide +kernel)
  cases cs with
  | nil => simp [StartsChar, utf8]
  | cons c cs =>
    rw [utf8_cons, StartsChar]
    by_cases hc : c.toNat < 128
    · rw [utf8EncodeChar_ascii hc]
      have hlt : c.toNat.toUInt8 < 128 := by
        rw [UInt8.lt_iff_toNat_lt, UInt8.toNat_ofNat', Nat.mod_eq_of_lt (by omega)]
        exact hc
      simpa using .inl hlt
    · have hsize := one_lt_utf8Size (not_lt.1 hc)
      obtain h | h | h | h := Char.utf8Size_eq c
      · omega
      · rw [String.utf8EncodeChar_eq_cons_cons h]
        simpa using .inr (hhigh _).1
      · rw [String.utf8EncodeChar_eq_cons_cons_cons h]
        simpa using .inr (hhigh _).2.1
      · rw [String.utf8EncodeChar_eq_cons_cons_cons_cons h]
        simpa using .inr (hhigh _).2.2

/-- The pair in front is turned away, or what is behind it. -/
theorem turnedAway_cons_cons {a b : UInt8} {t : Bytes} : TurnedAway (a :: b :: t) ↔
    pairValue a b = none ∧ StartsChar t ∨ (pairValue a b).isSome ∧ TurnedAway t := by
  constructor
  · rintro ⟨p, a', b', u, heq, hp, hnone, hu⟩
    rcases p with _ | ⟨x, _ | ⟨y, p⟩⟩
    · cases heq
      exact .inl ⟨hnone, hu⟩
    · exact hp.elim
    · obtain ⟨rfl, rfl, rfl⟩ : a = x ∧ b = y ∧ t = p ++ a' :: b' :: u := by simpa using heq
      exact .inr ⟨pairValue_isSome.2 ⟨hp.1, hp.2.1⟩, p, a', b', u, rfl, hp.2.2, hnone, hu⟩
  · rintro (⟨hnone, ht⟩ | ⟨hsome, p, a', b', u, rfl, hp, hnone, hu⟩)
    · exact ⟨[], a, b, t, rfl, trivial, hnone, ht⟩
    · obtain ⟨ha, hb⟩ := pairValue_isSome.1 hsome
      exact ⟨a :: b :: p, a', b', u, rfl, ⟨ha, hb, hp⟩, hnone, hu⟩

/-- A text of fewer than two bytes is not turned away. -/
theorem not_turnedAway {s : Bytes} (h : s.length < 2) : ¬ TurnedAway s := by
  rintro ⟨p, a, b, t, rfl, -⟩
  rw [List.length_append, List.length_cons, List.length_cons] at h
  omega

/-- One item of the walk: a number, where the slice ends a character… -/
theorem decodeAt_of_startsChar {s t : Bytes} {i : ℕ} {a b : UInt8} (hs : s.drop i = a :: b :: t)
    (hstart : StartsChar (a :: b :: t)) (ht : StartsChar t) :
    decodeAt s i = .ok (fromStrRadix16 [a, b]) := by
  have hlen : s.length - i = t.length + 2 := by rw [← List.length_drop, hs]; rfl
  have hrest : s.drop (i + 2) = t := by rw [← List.drop_drop, hs]; rfl
  have hfrom := (isCharBoundary_iff (by omega) hs).2 (.inr hstart)
  have hto := (isCharBoundary_iff (by omega) hrest).2 (.inr ht)
  rw [decodeAt, slice, if_pos ⟨by omega, hfrom, hto⟩, hs]
  simp [bind, Except.bind]

/-- …and a panic where it does not. -/
theorem decodeAt_of_not_startsChar {s t : Bytes} {i : ℕ} {a b : UInt8}
    (hs : s.drop i = a :: b :: t) (ht : ¬ StartsChar t) : decodeAt s i = .error .sliceError := by
  have hlen : s.length - i = t.length + 2 := by rw [← List.length_drop, hs]; rfl
  have hrest : s.drop (i + 2) = t := by rw [← List.drop_drop, hs]; rfl
  have hto : ¬ isCharBoundary s (i + 2) = true := fun h =>
    ht (((isCharBoundary_iff (by omega) hrest).1 h).resolve_left (by omega))
  rw [decodeAt, slice, if_neg fun h => hto h.2.2]
  rfl

/-- A collection fails where its first item does, or the collection of the rest. -/
theorem collect_cons_eq_error {item : ℕ → Except Panic (Except ParseIntError UInt8)} {i : ℕ}
    {is : List ℕ} {e : ParseIntError} : collect item (i :: is) = .ok (.error e) ↔
      item i = .ok (.error e) ∨ ∃ v, item i = .ok (.ok v) ∧ collect item is = .ok (.error e) := by
  rw [collect]
  rcases item i with e' | e' | v
  · simp [bind, Except.bind]
  · simp [bind, Except.bind]
  · rcases collect item is with e' | e' | vs <;> simp [bind, Except.bind]

/-- The two bytes of a pair are two characters: what is behind them is a text again. -/
theorem exists_utf8_of_pair {cs : List Char} {a b : UInt8} {t : Bytes}
    (hcs : utf8 cs = a :: b :: t) (h : (pairValue a b).isSome) : ∃ ds, utf8 ds = t := by
  obtain ⟨v, hv⟩ := Option.isSome_iff_exists.1 h
  obtain ⟨y, hy⟩ := Option.isSome_iff_exists.1 (pairValue_isSome.1 h).2
  have hsplit : utf8 cs = [a, b] ++ t := hcs
  obtain ⟨ds, -, hds⟩ :=
    eq_chars_append (by simpa using ⟨lt_of_pairValue hv, lt_of_toDigit hy⟩) hsplit
  exact ⟨ds, hds⟩

/-- **The walk over what is left of a text** fails just if that is turned away. -/
theorem collect_decodeAt_error {s : Bytes} (t : Bytes) :
    ∀ {i : ℕ}, s.drop i = t → ∀ {cs : List Char}, t = utf8 cs →
      ((∃ e, collect (decodeAt s) (List.range' i ((t.length + 1) / 2) 2) = .ok (.error e)) ↔
        TurnedAway t) := by
  induction t using decodePairs.induct with
  | case1 =>
    intro i _ cs _
    exact iff_of_false (by simp [collect]) (not_turnedAway (by simp))
  | case2 c =>
    intro i hi cs _
    -- The slice of an odd byte ends behind the text.
    have hpanic : ∀ r, decodeAt s i ≠ .ok r := by
      intro r hr
      cases hsrc : slice s i (i + 2) with
      | error e => rw [decodeAt, hsrc] at hr; cases hr
      | ok src =>
        obtain ⟨a, b, t, ht, -⟩ := slice_two_eq_ok hsrc
        rw [hi] at ht
        cases ht
    refine iff_of_false ?_ (not_turnedAway (by simp))
    rintro ⟨e, he⟩
    have hone : List.range' i (([c].length + 1) / 2) 2 = [i] := by simp [List.range'_succ]
    rw [hone] at he
    rcases collect_cons_eq_error.1 he with hitem | ⟨v, hitem, -⟩
    · exact hpanic _ hitem
    · exact hpanic _ hitem
  | case3 a b t ih =>
    intro i hi cs hcs
    have hrest : s.drop (i + 2) = t := by rw [← List.drop_drop, hi]; rfl
    have hlen : ((a :: b :: t).length + 1) / 2 = (t.length + 1) / 2 + 1 := by
      simp only [List.length_cons]
      omega
    simp only [hlen, List.range'_succ, collect_cons_eq_error, turnedAway_cons_cons]
    by_cases ht : StartsChar t
    · rw [decodeAt_of_startsChar hi (hcs ▸ startsChar_utf8 cs) ht]
      have hpair := fromStrRadix16_pair a b
      cases hnum : fromStrRadix16 [a, b] with
      | error e =>
        rw [hnum] at hpair
        have hnone : pairValue a b = none := hpair.symm
        exact iff_of_true ⟨e, .inl rfl⟩ (.inl ⟨hnone, ht⟩)
      | ok v =>
        rw [hnum] at hpair
        have hsome : pairValue a b = some v := hpair.symm
        obtain ⟨ds, hds⟩ := exists_utf8_of_pair hcs.symm (by rw [hsome]; rfl)
        simp [hsome, ih hrest hds.symm]
    · rw [decodeAt_of_not_startsChar hi ht]
      refine iff_of_false (by simp) ?_
      rintro (⟨-, h⟩ | ⟨hsome, -⟩)
      · exact ht h
      · obtain ⟨ds, hds⟩ := exists_utf8_of_pair hcs.symm hsome
        exact ht (hds ▸ startsChar_utf8 ds)

/-! ## Exactness -/

/-- **Decoded exactly**: hexadecimal text to what it spells, and any other text to an error. -/
structure DecodesExactly (s : Bytes) : Prop where
  ok : IsText s → ∃ bs, decodeHex s = .ok (.ok bs) ∧ spell bs = s.map lower
  err : ¬ IsText s → ∃ e, decodeHex s = .ok (.error e)

/-- **`decode_hex` is exact** on a text just if that is hexadecimal, or turned away: the walk meets
a pair it cannot decode, and no slice before it that it cannot make. -/
theorem decodesExactly_iff (cs : List Char) :
    DecodesExactly (utf8 cs) ↔ IsText (utf8 cs) ∨ TurnedAway (utf8 cs) := by
  have herror : (∃ e, decodeHex (utf8 cs) = .ok (.error e)) ↔ TurnedAway (utf8 cs) :=
    collect_decodeAt_error (utf8 cs) rfl rfl
  constructor
  · intro h
    by_cases htext : IsText (utf8 cs)
    · exact .inl htext
    · exact .inr (herror.1 (h.err htext))
  · rintro (htext | haway)
    · exact ⟨fun _ => ⟨_, decodeHex_of_isText htext, spell_unspell htext⟩, fun h => absurd htext h⟩
    · obtain ⟨e, he⟩ := herror.2 haway
      refine ⟨fun htext => ?_, fun _ => ⟨e, he⟩⟩
      rw [decodeHex_of_isText htext] at he
      cases he

/-- `+f` is no hexadecimal text, and is decoded. -/
theorem not_decodesExactly : ¬ ∀ cs : List Char, DecodesExactly (utf8 cs) := by
  intro h
  have hbytes : utf8 ['+', 'f'] = [43, 102] := by
    rw [utf8_cons, utf8_cons, utf8EncodeChar_ascii (by decide), utf8EncodeChar_ascii (by decide)]
    rfl
  have hexact := h ['+', 'f']
  rw [hbytes] at hexact
  obtain ⟨e, he⟩ := hexact.err (by simp [IsText]; decide)
  have hok : decodeHex [43, 102] = .ok (.ok [15]) := decodeHex_eq_ok.2 (by decide)
  rw [hok] at he
  cases he

end Verifier
