import AttestationChain.Dcap.Json.Grammar

/-!
# Dcap/Json/Spelling — each token is read as it is spelled

What the scanners make of a memory, by the grammar's rules for its tokens: blanks (`stands_iff`),
strings (`scanString_eq_ok_iff`) and what they stand for (`stringValue_eq_ok_iff`), numbers
(`parseNumber_eq_ok_iff`), words (`finds_eq_ok_iff`) and the kind of an object
(`emptyObject_eq_ok_iff`).
-/

namespace Dcap.JSON

variable {Double : Type} {doubles : Doubles Double} {overload : Overload}

/-! ## Blanks -/

theorem stands_iff {mem m : Bytes} : Stands mem m ↔ consumeWs mem = .ok m := by
  constructor
  · rintro ⟨blanks, hblanks, rfl, c, hc, hspace⟩
    obtain ⟨r, rfl⟩ := List.head?_eq_some_iff.1 (Option.mem_def.1 hc)
    induction blanks with
    | nil => rw [List.nil_append, consumeWs, if_neg (by simp [hspace])]
    | cons b blanks ih =>
      rw [List.all_cons, Bool.and_eq_true] at hblanks
      rw [List.cons_append, consumeWs, if_pos hblanks.1]
      exact ih hblanks.2
  · intro h
    induction mem with
    | nil => cases h
    | cons c mem ih =>
      rw [consumeWs] at h
      split at h
      · rename_i hc
        obtain ⟨blanks, hblanks, rfl, hm⟩ := ih h
        exact ⟨c :: blanks, by rw [List.all_cons, hc, hblanks]; rfl, rfl, hm⟩
      · rename_i hc
        cases h
        exact ⟨[], rfl, rfl, c, rfl, by simpa using hc⟩

theorem exists_cons_of_stands {mem m : Bytes} (h : Stands mem m) : ∃ c r, m = c :: r := by
  obtain ⟨-, -, -, c, hc, -⟩ := h
  exact ⟨c, List.head?_eq_some_iff.1 (Option.mem_def.1 hc)⟩

/-! ## Strings -/

theorem prepend_eq_ok {s : Bytes} {r : Except Fault (Option Bytes × Bytes)} {val : Option Bytes}
    {mem : Bytes} (h : prepend s r = .ok (val, mem)) :
    ∃ val', r = .ok (val', mem) ∧ val = val'.map (s ++ ·) := by
  rcases r with fault | ⟨val', mem'⟩
  · cases h
  · cases h
    exact ⟨val', rfl, rfl⟩

theorem spelled_of_scanString {mem r : Bytes} {val : Option Bytes}
    (h : scanString mem = .ok (val, r)) : Spelled mem val r := by
  fun_induction scanString mem generalizing val with
  | case1 => cases h
  | case2 =>
    cases h
    exact .close
  | case3 c hc => cases h
  | case4 e mem =>
    cases h
    exact .close
  | case5 c e mem hc hc' ih =>
    obtain ⟨val', hval, rfl⟩ := prepend_eq_ok h
    exact .char hc hc' (ih hval)
  | case6 c e mem hc hc' he ih =>
    obtain ⟨val', hval, rfl⟩ := prepend_eq_ok h
    rw [not_not.1 hc']
    exact .escape he (ih hval)
  | case7 c e hc hc' he h₁ h₂ h₃ h₄ mem hhex ih =>
    obtain ⟨val', hval, rfl⟩ := prepend_eq_ok h
    rw [not_not.1 hc', not_not.1 he]
    exact .unicode hhex (ih hval)
  | case8 c e hc hc' he h₁ h₂ h₃ h₄ mem hhex =>
    cases h
    rw [not_not.1 hc', not_not.1 he]
    exact .misspelled (by simpa using hhex)
  | case9 c e hc hc' he mem hmem hhex => cases h
  | case10 c e hc hc' he mem hmem hhex =>
    cases h
    rw [not_not.1 hc', not_not.1 he]
    have hlen : mem.length < 4 := by
      rcases mem with _ | ⟨h₁, _ | ⟨h₂, _ | ⟨h₃, _ | ⟨h₄, r⟩⟩⟩⟩
      · decide
      · simp
      · simp
      · simp
      · exact (hmem _ _ _ _ _ rfl).elim
    exact .misspelled (by rw [List.take_of_length_le (by omega)]; simpa using hhex)

/-- **A string** is scanned as it is spelled. -/
theorem scanString_eq_ok_iff {mem r : Bytes} {val : Option Bytes} :
    scanString mem = .ok (val, r) ↔ Spelled mem val r := by
  refine ⟨spelled_of_scanString, fun h => ?_⟩
  induction h with
  | close => exact scanString_quote _
  | char hquote hescape _ ih =>
    rw [scanString_cons hquote hescape, ih]
    rfl
  | escape he _ ih =>
    rw [scanString_escape he, ih]
    rfl
  | unicode hdigits _ ih =>
    rw [scanString_unicode, if_pos hdigits, ih]
    rfl
  | misspelled h => exact scanString_unicode_none h

/-- No string has both of the tags. -/
theorem not_buffTag {val : Bytes} (h : hashTag <+: val) : ¬ buffTag <+: val := by
  intro h'
  have := List.prefix_of_prefix_length_le h h' (by decide)
  exact absurd this (by decide)

theorem hexstringToBytes_eq_none_iff {src : Bytes} :
    hexstringToBytes src = none ↔ src.length % 2 = 1 := by
  rw [hexstringToBytes]
  split
  · simp only [true_iff]
    omega
  · simp only [reduceCtorEq, false_iff]
    omega

theorem stringValue_hashTag (hex : Bytes) : (stringValue (hashTag ++ hex) :
    Except Fault (JSON Double)) = match hexstringToBytes hex with
      | some block => if block.length < 32 then .error .outOfBounds else .ok (.hash (block.take 32))
      | none => .ok (.string (hashTag ++ hex)) := by
  have hdrop : (hashTag ++ hex).drop hashTag.length = hex := List.drop_left
  rw [stringValue, if_pos (List.prefix_append ..)]
  generalize (hashTag ++ hex).drop hashTag.length = digits at hdrop ⊢
  subst hdrop
  rfl

theorem stringValue_buffTag (hex : Bytes) : (stringValue (buffTag ++ hex) :
    Except Fault (JSON Double)) = match hexstringToBytes hex with
      | some block => .ok (.buffer block)
      | none => if hex.length = 1 then .ok (.buffer []) else .error .outOfBounds := by
  have hlen : (buffTag ++ hex).length = buffTag.length + 1 ↔ hex.length = 1 := by
    rw [List.length_append, Nat.add_left_cancel_iff]
  have hdrop : (buffTag ++ hex).drop buffTag.length = hex := List.drop_left
  rw [stringValue, if_neg fun h => not_buffTag h (List.prefix_append ..),
    if_pos (List.prefix_append ..)]
  simp only [hlen]
  generalize (buffTag ++ hex).drop buffTag.length = digits at hdrop ⊢
  subst hdrop
  rfl

theorem denotes_of_stringValue {val : Bytes} {v : JSON Double} (h : stringValue val = .ok v) :
    Denotes val v := by
  by_cases hhash : hashTag <+: val
  · obtain ⟨hex, rfl⟩ := hhash
    rw [stringValue_hashTag] at h
    rcases hblock : hexstringToBytes hex with _ | block
    · rw [hblock] at h
      cases h
      exact .oddHash (hexstringToBytes_eq_none_iff.1 hblock)
    · rw [hblock] at h
      have hlen := (length_hexstringToBytes hblock).2
      dsimp only at h
      split at h
      · cases h
      · cases h
        exact .hash hblock (by omega)
  by_cases hbuff : buffTag <+: val
  · obtain ⟨hex, rfl⟩ := hbuff
    rw [stringValue_buffTag] at h
    rcases hblock : hexstringToBytes hex with _ | block
    · rw [hblock] at h
      dsimp only at h
      split at h
      · rename_i hlen
        cases h
        obtain ⟨c, rfl⟩ := List.length_eq_one_iff.1 hlen
        exact .digit
      · cases h
    · rw [hblock] at h
      cases h
      exact .buffer hblock
  · rw [stringValue, if_neg hhash, if_neg hbuff] at h
    cases h
    exact .plain hhash hbuff

theorem Denotes.stringValue_eq {val : Bytes} {v : JSON Double} (h : Denotes val v) :
    stringValue val = .ok v := by
  cases h with
  | hash h hlen =>
    have hblock := (length_hexstringToBytes h).2
    rw [stringValue_hashTag, h]
    exact if_neg (by omega)
  | oddHash hodd => rw [stringValue_hashTag, hexstringToBytes_eq_none_iff.2 hodd]
  | buffer h => rw [stringValue_buffTag, h]
  | digit =>
    rw [stringValue_buffTag]
    rfl
  | plain hhash hbuff => exact stringValue_untagged ⟨hhash, hbuff⟩

/-- **A string** is taken for what it stands for. -/
theorem stringValue_eq_ok_iff {val : Bytes} {v : JSON Double} :
    stringValue val = .ok v ↔ Denotes val v :=
  ⟨denotes_of_stringValue, Denotes.stringValue_eq⟩

/-! ## Numbers -/

theorem scanWhile_eq_ok_iff {p : UInt8 → Bool} {mem val r : Bytes} {c : UInt8} :
    scanWhile p mem = .ok (val, c, r) ↔ val.all p = true ∧ p c = false ∧ mem = val ++ c :: r := by
  refine ⟨fun h => ?_, fun ⟨hval, hc, hmem⟩ => hmem ▸ scanWhile_append hval hc r⟩
  induction mem generalizing val with
  | nil => cases h
  | cons d mem ih =>
    rw [scanWhile] at h
    split at h
    · rename_i hd
      obtain ⟨⟨val', c', r'⟩, hscan, h⟩ := bind_eq_ok.1 h
      cases h
      obtain ⟨hval, hc, rfl⟩ := ih hscan
      exact ⟨by rw [List.all_cons, hd, hval]; rfl, hc, rfl⟩
    · rename_i hd
      cases h
      exact ⟨rfl, by simpa using hd, rfl⟩

theorem scanExponent_eq_ok_iff {mem sign ds r : Bytes} {d : UInt8} :
    scanExponent mem = .ok (sign, ds, d, r) ↔
      ∃ s, Sign s sign ∧ ds.all isDigit = true ∧ isDigit d = false ∧
        mem = s ++ (ds ++ d :: r) := by
  constructor
  · intro h
    obtain ⟨⟨sign', mem'⟩, hsign, h⟩ := bind_eq_ok.1 h
    obtain ⟨⟨ds', d', r'⟩, hscan, h⟩ := bind_eq_ok.1 h
    cases h
    obtain ⟨hds, hd, rfl⟩ := scanWhile_eq_ok_iff.1 hscan
    rcases mem with _ | ⟨c, mem⟩
    · cases hsign
    by_cases hc : c = 45
    · rw [exponentSign, if_pos hc] at hsign
      rcases mem with _ | ⟨c', mem⟩
      · exact absurd (congrArg Prod.snd (Except.ok.inj hsign)) (by simp)
      · cases hsign
        exact ⟨[45, c'], .minus c', hds, hd, by rw [hc]; simp_all⟩
    · rw [exponentSign, if_neg hc] at hsign
      cases hsign
      exact ⟨[c], .other hc, hds, hd, rfl⟩
  · rintro ⟨s, hs, hds, hd, rfl⟩
    have hsign : exponentSign (s ++ (ds ++ d :: r)) = .ok (sign, ds ++ d :: r) := by
      rcases hs with c | @⟨c, hc⟩
      · rfl
      · rw [List.singleton_append, exponentSign, if_neg hc]
    rw [scanExponent, hsign]
    change scanWhile isDigit (ds ++ d :: r) >>= _ = _
    rw [scanWhile_append hds hd]
    rfl

theorem isDigit_of_endsNumber {d : UInt8} (h : endsNumber d = true) : isDigit d = false := by
  by_contra hd
  have hchar := isNumberChar_of_isDigit (Bool.eq_true_of_not_eq_false hd)
  rw [isNumberChar_of_endsNumber h] at hchar
  cases hchar

theorem isNumberChar_exponent {e : UInt8} (h : e = 69 ∨ e = 101) : isNumberChar e = false := by
  rcases h with rfl | rfl
  · rfl
  · rfl

theorem plainNumber_spelled {status status' : CrustStatus} {w r r' : Bytes} {d : UInt8}
    {v : JSON Double} (hw : w.all isNumberChar = true) (hd : isNumberChar d = false)
    (he : ¬ (d = 69 ∨ d = 101))
    (h : plainNumber doubles status w d r = .ok (v, status', r')) :
    (NumberAt doubles (w ++ d :: r) (some v) r' ∧ status' = status) ∨
      NumberAt doubles (w ++ d :: r) none r' ∧ v = .null ∧ status' = .jsonNumberError := by
  rw [plainNumber] at h
  split at h
  · rename_i hend
    cases h
    exact .inr ⟨.bad hw (by simpa using hend) hd he, rfl, rfl⟩
  rename_i hend
  have hend' : endsNumber d = true := by simpa using hend
  split at h
  · rename_i hdot
    rcases hx : doubles.stod w with _ | x
    · rw [hx] at h
      cases h
    · rw [hx] at h
      cases h
      exact .inl ⟨.fraction hw hend' hdot hx, rfl⟩
  · rename_i hdot
    obtain ⟨i, hi, h⟩ := bind_eq_ok.1 h
    cases h
    exact .inl ⟨.integer hw hend' hdot hi, rfl⟩

theorem exponentNumber_spelled {status status' : CrustStatus} {w s sign ds r r' : Bytes}
    {e d : UInt8} {v : JSON Double} (hw : w.all isNumberChar = true) (he : e = 69 ∨ e = 101)
    (hs : Sign s sign) (hds : ds.all isDigit = true) (hd : isDigit d = false)
    (h : exponentNumber doubles status w (sign ++ ds) d r = .ok (v, status', r')) :
    (NumberAt doubles (w ++ e :: (s ++ (ds ++ d :: r))) (some v) r' ∧ status' = status) ∨
      NumberAt doubles (w ++ e :: (s ++ (ds ++ d :: r))) none r' ∧ v = .null ∧
        status' = .jsonNumberError := by
  rw [exponentNumber] at h
  split at h
  · rename_i hend
    cases h
    exact .inr ⟨.badExponent hw he hs hds (by simpa using hend) hd, rfl, rfl⟩
  rename_i hend
  have hend' : endsNumber d = true := by simpa using hend
  obtain ⟨exp, hexp, h⟩ := bind_eq_ok.1 h
  split at h
  · rename_i hdot
    rcases hx : doubles.stod w with _ | x
    · rw [hx] at h
      cases h
    · rw [hx] at h
      cases h
      exact .inl ⟨.exponent hw he hs hds hend' hexp (.inl ⟨hdot, hx⟩), rfl⟩
  · rename_i hdot
    obtain ⟨i, hi, h⟩ := bind_eq_ok.1 h
    cases h
    exact .inl ⟨.exponent hw he hs hds hend' hexp (.inr ⟨hdot, i, hi, rfl⟩), rfl⟩

theorem NumberAt.parseNumber_eq {mem r : Bytes} {o : Option (JSON Double)}
    (h : NumberAt doubles mem o r) (status : CrustStatus) : parseNumber doubles status mem =
      .ok (o.getD .null, if o.isSome then status else .jsonNumberError, r) := by
  have hplain : ∀ {w : Bytes} {d : UInt8} {r : Bytes}, w.all isNumberChar = true →
      isNumberChar d = false → ¬ (d = 69 ∨ d = 101) →
      parseNumber doubles status (w ++ d :: r) = plainNumber doubles status w d r := by
    intro w d r hw hd he
    rw [JSON.parseNumber_eq, scanWhile_append hw hd]
    exact if_neg he
  have hexponent : ∀ {w s sign ds : Bytes} {e d : UInt8} {r : Bytes}, w.all isNumberChar = true →
      (e = 69 ∨ e = 101) → Sign s sign → ds.all isDigit = true → isDigit d = false →
      parseNumber doubles status (w ++ e :: (s ++ (ds ++ d :: r))) =
        exponentNumber doubles status w (sign ++ ds) d r := by
    intro w s sign ds e d r hw he hs hds hd
    rw [JSON.parseNumber_eq, scanWhile_append hw (isNumberChar_exponent he)]
    change (if e = 69 ∨ e = 101 then _ else _) = _
    rw [if_pos he, scanExponent_eq_ok_iff.2 ⟨s, hs, hds, hd, rfl⟩]
    rfl
  cases h with
  | integer hw hd hdot hi =>
    rw [hplain hw (isNumberChar_of_endsNumber hd) (endsNumber_ne hd), plainNumber,
      if_neg (by simp [hd]), if_neg hdot, hi]
    rfl
  | fraction hw hd hdot hx =>
    rw [hplain hw (isNumberChar_of_endsNumber hd) (endsNumber_ne hd), plainNumber,
      if_neg (by simp [hd]), if_pos hdot, hx]
    rfl
  | exponent hw he hs hds hd hexp hx =>
    rw [hexponent hw he hs hds (isDigit_of_endsNumber hd), exponentNumber, if_neg (by simp [hd]),
      hexp]
    rcases hx with ⟨hdot, hx⟩ | ⟨hdot, i, hi, rfl⟩
    · exact (if_pos hdot).trans (by rw [hx]; rfl)
    · exact (if_neg hdot).trans (by rw [hi]; rfl)
  | bad hw hd hd' he =>
    rw [hplain hw hd' he, plainNumber, if_pos (by simp [hd])]
    rfl
  | badExponent hw he hs hds hd hd' =>
    rw [hexponent hw he hs hds hd', exponentNumber, if_pos (by simp [hd])]
    rfl

/-- **A number** is read as the text says. -/
theorem parseNumber_eq_ok_iff {status status' : CrustStatus} {mem r : Bytes} {v : JSON Double} :
    parseNumber doubles status mem = .ok (v, status', r) ↔
      (NumberAt doubles mem (some v) r ∧ status' = status) ∨
        NumberAt doubles mem none r ∧ v = .null ∧ status' = .jsonNumberError := by
  constructor
  · intro h
    rw [parseNumber_eq] at h
    obtain ⟨⟨w, d, r₁⟩, hscan, hnumber⟩ := bind_eq_ok.1 h
    obtain ⟨hw, hd, rfl⟩ := scanWhile_eq_ok_iff.1 hscan
    dsimp only at hnumber
    split at hnumber
    · rename_i he
      obtain ⟨⟨sign, ds, d', r₂⟩, hexp, hnumber'⟩ := bind_eq_ok.1 hnumber
      obtain ⟨s, hs, hds, hd', rfl⟩ := scanExponent_eq_ok_iff.1 hexp
      exact exponentNumber_spelled hw he hs hds hd' hnumber'
    · rename_i he
      exact plainNumber_spelled hw hd he hnumber
  · rintro (⟨h, rfl⟩ | ⟨h, rfl, rfl⟩)
    · exact h.parseNumber_eq status'
    · exact h.parseNumber_eq status

/-! ## Words and kinds -/

theorem ok_decide_eq_iff {p : Prop} [Decidable p] {b : Bool} :
    (.ok (decide p) : Except Fault Bool) = .ok b ↔ (b = true ↔ p) := by
  cases b <;> simp

theorem memcmp_eq_ok_iff {mem word : Bytes} {b : Bool} :
    memcmp mem word = .ok b ↔ word.length ≤ mem.length ∧ (b = true ↔ word <+: mem) := by
  rw [memcmp]
  split
  · simp only [reduceCtorEq, false_iff]
    omega
  · rw [ok_decide_eq_iff, and_iff_right (by omega)]

theorem finds_eq_ok_iff {mem word : Bytes} {b : Bool} : overload.finds mem word = .ok b ↔
    overload.Room word.length mem ∧ (b = true ↔ word <+: mem) := by
  cases overload with
  | string =>
    change .ok (decide (word <+: mem)) = Except.ok b ↔ _
    rw [ok_decide_eq_iff, and_iff_right (by rintro ⟨⟩)]
  | bytes =>
    change memcmp mem word = .ok b ↔ _
    rw [memcmp_eq_ok_iff, Overload.Room, imp_iff_right rfl]

/-- **The kind of an object** is the one that stands there. -/
theorem emptyObject_eq_ok_iff {mem r : Bytes} {obj : JSON Double} :
    emptyObject mem = .ok (obj, r) ↔ KindAt mem obj r := by
  have hneg : ∀ {b : Bool} {word : Bytes}, (b = true ↔ word <+: mem) → ¬ b = true →
      ¬ word <+: mem := fun h hb hword => hb (h.2 hword)
  constructor
  · intro h
    obtain ⟨fio, hfio, h⟩ := bind_eq_ok.1 h
    obtain ⟨-, hfio⟩ := memcmp_eq_ok_iff.1 hfio
    split at h
    · rename_i hb
      cases h
      obtain ⟨t, rfl⟩ := hfio.1 hb
      exact .fio
    rename_i hb
    obtain ⟨flat, hflat, h⟩ := bind_eq_ok.1 h
    obtain ⟨hroom, hflat⟩ := memcmp_eq_ok_iff.1 hflat
    split at h
    · rename_i hb
      cases h
      obtain ⟨t, rfl⟩ := hflat.1 hb
      exact .flat
    · rename_i hb'
      cases h
      exact .plain (hneg hfio hb) (hneg hflat hb') hroom
  · rintro (_ | _ | ⟨hfio, hflat, hroom⟩)
    · rfl
    · rfl
    · have hfind : ∀ {word : Bytes}, word.length ≤ mem.length → ¬ word <+: mem →
          memcmp mem word = .ok false := fun hle hword =>
        memcmp_eq_ok_iff.2 ⟨hle, iff_of_false (by simp) hword⟩
      have hfio' : memcmp mem (ascii "fio") = .ok false := hfind (le_trans (by decide) hroom) hfio
      have hflat' : memcmp mem (ascii "flat") = .ok false := hfind hroom hflat
      rw [emptyObject, hfio', hflat']
      rfl

end Dcap.JSON
