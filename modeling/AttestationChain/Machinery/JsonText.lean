import Mathlib.Data.List.Basic
import Mathlib.Data.List.TakeDrop
import Mathlib.Data.List.TakeWhile

/-!
# Machinery/JsonText — the standard JSON texts, and what each denotes

A grammar as a reading relation: `Reads s v r` says a value `v` can be read off the front of `s`,
leaving `r`.  Members are kept in document order and strings hold the characters they spell.  The
relation is a partial function (`Reads.unique`), so a text denotes at most one value
(`Text.unique`) and `decode` — the reader every standard parser is — is determined by it.
-/

namespace JsonText

/-- The value of a JSON text.  A number is kept as it is spelled. -/
inductive Value
  | object (members : List (List Char × Value))
  | array (elements : List Value)
  | string (chars : List Char)
  | number (spelling : List Char)
  | boolean (b : Bool)
  | null

/-! ## Tokens -/

/-- `ws`: what stands between tokens. -/
def skipWs (s : List Char) : List Char :=
  s.dropWhile fun c => c = ' ' ∨ c = '\t' ∨ c = '\n' ∨ c = '\r'

/-- The character a two-character escape spells. -/
def escapeOf : Char → Option Char
  | '"' => some '"'
  | '\\' => some '\\'
  | '/' => some '/'
  | 'b' => some '\x08'
  | 'f' => some '\x0c'
  | 'n' => some '\n'
  | 'r' => some '\r'
  | 't' => some '\t'
  | _ => none

/-- A hexadecimal digit. -/
def hexDigit (c : Char) : Option ℕ :=
  if '0' ≤ c ∧ c ≤ '9' then some (c.toNat - '0'.toNat)
  else if 'a' ≤ c ∧ c ≤ 'f' then some (c.toNat - 'a'.toNat + 10)
  else if 'A' ≤ c ∧ c ≤ 'F' then some (c.toNat - 'A'.toNat + 10)
  else none

/-- The code unit four hexadecimal digits spell. -/
def codeUnit (a b c d : Char) : Option ℕ := do
  let a ← hexDigit a
  let b ← hexDigit b
  let c ← hexDigit c
  let d ← hexDigit d
  some (((a * 16 + b) * 16 + c) * 16 + d)

/-- **The characters of a string**, read behind its opening quote and through its closing one. -/
inductive Chars : List Char → List Char → List Char → Prop
  | close {r} : Chars ('"' :: r) [] r
  | plain {c s v r} (hc : ' ' ≤ c) (hquote : c ≠ '"') (hescape : c ≠ '\\') (h : Chars s v r) :
      Chars (c :: s) (c :: v) r
  | escape {e c s v r} (he : escapeOf e = some c) (h : Chars s v r) :
      Chars ('\\' :: e :: s) (c :: v) r
  | unicode {a₁ a₂ a₃ a₄ c s v r} (hc : codeUnit a₁ a₂ a₃ a₄ = some c.toNat) (h : Chars s v r) :
      Chars ('\\' :: 'u' :: a₁ :: a₂ :: a₃ :: a₄ :: s) (c :: v) r
  | surrogates {a₁ a₂ a₃ a₄ b₁ b₂ b₃ b₄ hi lo c s v r} (hhi : codeUnit a₁ a₂ a₃ a₄ = some hi)
      (hlo : codeUnit b₁ b₂ b₃ b₄ = some lo) (hhi' : 0xD800 ≤ hi ∧ hi < 0xDC00)
      (hlo' : 0xDC00 ≤ lo ∧ lo < 0xE000)
      (hc : c.toNat = 0x10000 + (hi - 0xD800) * 0x400 + (lo - 0xDC00)) (h : Chars s v r) :
      Chars ('\\' :: 'u' :: a₁ :: a₂ :: a₃ :: a₄ :: '\\' :: 'u' :: b₁ :: b₂ :: b₃ :: b₄ :: s)
        (c :: v) r

/-- The digits in front of a text, and what follows them. -/
def scanDigits (s : List Char) : List Char × List Char := s.span Char.isDigit

/-- `int`: a zero, or digits that do not start with one. -/
def scanInt : List Char → Option (List Char × List Char)
  | '0' :: r => some (['0'], r)
  | s => if (scanDigits s).1 = [] then none else some (scanDigits s)

/-- `frac`, where there is one. -/
def scanFrac : List Char → Option (List Char × List Char)
  | '.' :: s =>
    if (scanDigits s).1 = [] then none
    else some ('.' :: (scanDigits s).1, (scanDigits s).2)
  | s => some ([], s)

/-- The sign of an exponent, where there is one. -/
def scanSign : List Char → List Char × List Char
  | '+' :: s => (['+'], s)
  | '-' :: s => (['-'], s)
  | s => ([], s)

/-- `exp`, where there is one. -/
def scanExp : List Char → Option (List Char × List Char)
  | [] => some ([], [])
  | e :: s =>
    if e = 'e' ∨ e = 'E' then
      let sign := scanSign s
      let ds := scanDigits sign.2
      if ds.1 = [] then none else some (e :: sign.1 ++ ds.1, ds.2)
    else some ([], e :: s)

/-- `number = [ minus ] int [ frac ] [ exp ]`, as far as it goes. -/
def scanNumber (s : List Char) : Option (List Char × List Char) := do
  let minus : List Char × List Char := match s with
    | '-' :: r => (['-'], r)
    | r => ([], r)
  let int ← scanInt minus.2
  let frac ← scanFrac int.2
  let exp ← scanExp frac.2
  some (minus.1 ++ int.1 ++ frac.1 ++ exp.1, exp.2)

/-! ## Values -/

mutual

/-- **A value, read off the front of a text.** -/
inductive Reads : List Char → Value → List Char → Prop
  | null {r} : Reads ('n' :: 'u' :: 'l' :: 'l' :: r) .null r
  | true {r} : Reads ('t' :: 'r' :: 'u' :: 'e' :: r) (.boolean true) r
  | false {r} : Reads ('f' :: 'a' :: 'l' :: 's' :: 'e' :: r) (.boolean false) r
  | number {s w r} (h : scanNumber s = some (w, r)) : Reads s (.number w) r
  | string {s v r} (h : Chars s v r) : Reads ('"' :: s) (.string v) r
  | emptyArray {s r} (h : skipWs s = ']' :: r) : Reads ('[' :: s) (.array []) r
  | array {s vs r} (h : Elements s vs r) : Reads ('[' :: s) (.array vs) r
  | emptyObject {s r} (h : skipWs s = '}' :: r) : Reads ('{' :: s) (.object []) r
  | object {s ms r} (h : Members s ms r) : Reads ('{' :: s) (.object ms) r

/-- The elements of an array, read through its closing bracket. -/
inductive Elements : List Char → List Value → List Char → Prop
  | last {s v t r} (hv : Reads (skipWs s) v t) (hend : skipWs t = ']' :: r) : Elements s [v] r
  | cons {s v t u vs r} (hv : Reads (skipWs s) v t) (hcomma : skipWs t = ',' :: u)
      (h : Elements u vs r) : Elements s (v :: vs) r

/-- The members of an object, read through its closing brace. -/
inductive Members : List Char → List (List Char × Value) → List Char → Prop
  | last {s t k u w v x r} (hquote : skipWs s = '"' :: t) (hk : Chars t k u)
      (hcolon : skipWs u = ':' :: w) (hv : Reads (skipWs w) v x) (hend : skipWs x = '}' :: r) :
      Members s [(k, v)] r
  | cons {s t k u w v x y ms r} (hquote : skipWs s = '"' :: t) (hk : Chars t k u)
      (hcolon : skipWs u = ':' :: w) (hv : Reads (skipWs w) v x) (hcomma : skipWs x = ',' :: y)
      (h : Members y ms r) : Members s ((k, v) :: ms) r

end

/-- **A JSON text**: one value, with nothing but whitespace around it. -/
def Text (s : List Char) (v : Value) : Prop := ∃ r, Reads (skipWs s) v r ∧ skipWs r = []

/-! ## A text denotes one value -/

theorem Char.toNat_not_surrogate (c : Char) : ¬ (0xD800 ≤ c.toNat ∧ c.toNat < 0xE000) := by
  have h := c.valid
  simp only [UInt32.isValidChar, Nat.isValidChar] at h
  change ¬ (0xD800 ≤ c.val.toNat ∧ c.val.toNat < 0xE000)
  omega

theorem Chars.unique {s v r v' r' : List Char} (h : Chars s v r) (h' : Chars s v' r') :
    v = v' ∧ r = r' := by
  induction h generalizing v' r' with
  | close =>
    cases h' with
    | close => exact ⟨rfl, rfl⟩
    | plain _ hq => exact absurd rfl hq
  | plain _ hq hb _ ih =>
    cases h' with
    | close => exact absurd rfl hq
    | plain _ _ _ h' =>
      obtain ⟨rfl, rfl⟩ := ih h'
      exact ⟨rfl, rfl⟩
    | escape => exact absurd rfl hb
    | unicode => exact absurd rfl hb
    | surrogates => exact absurd rfl hb
  | escape he _ ih =>
    cases h' with
    | plain _ _ hb => exact absurd rfl hb
    | escape he' h' =>
      obtain ⟨rfl, rfl⟩ := ih h'
      rw [he] at he'
      cases he'
      exact ⟨rfl, rfl⟩
    | unicode => cases he
    | surrogates => cases he
  | @unicode _ _ _ _ c _ _ _ hc _ ih =>
    cases h' with
    | plain _ _ hb => exact absurd rfl hb
    | escape he' => cases he'
    | unicode hc' h' =>
      obtain ⟨rfl, rfl⟩ := ih h'
      rw [hc] at hc'
      exact ⟨by rw [Char.toNat_inj.1 (Option.some.inj hc')], rfl⟩
    | surrogates hhi' _ hrange =>
      rw [hc] at hhi'
      have := Char.toNat_not_surrogate c
      cases hhi'
      omega
  | surrogates hhi hlo hrange _ hc _ ih =>
    cases h' with
    | plain _ _ hb => exact absurd rfl hb
    | escape he' => cases he'
    | @unicode _ _ _ _ c' _ _ _ hc' =>
      rw [hhi] at hc'
      have := Char.toNat_not_surrogate c'
      cases hc'
      omega
    | surrogates hhi' hlo' _ _ hc' h' =>
      obtain ⟨rfl, rfl⟩ := ih h'
      rw [hhi] at hhi'
      rw [hlo] at hlo'
      cases hhi'
      cases hlo'
      exact ⟨by rw [Char.toNat_inj.1 (hc.trans hc'.symm)], rfl⟩

/-- No number starts with the first character of another value. -/
theorem scanNumber_ne {c : Char} {s : List Char} {x : List Char × List Char}
    (h : scanNumber (c :: s) = some x) : c = '-' ∨ c.isDigit = true := by
  by_contra hno
  push Not at hno
  obtain ⟨hminus, hdigit⟩ := hno
  have hzero : c ≠ '0' := fun h0 => hdigit (h0 ▸ rfl)
  have hint : scanInt (c :: s) = none := by
    have hempty : (scanDigits (c :: s)).1 = [] := by
      rw [scanDigits, List.span_eq_takeWhile_dropWhile, List.takeWhile_cons_of_neg hdigit]
    rw [scanInt, if_pos hempty]
    exact fun r hr => hzero (List.cons.inj hr).1
  have hnone : scanNumber (c :: s) = none := by
    rw [scanNumber]
    · simp only [hint]
      rfl
    · exact fun r hr => hminus (List.cons.inj hr).1
  rw [hnone] at h
  cases h

/-- No value starts with a closing bracket… -/
theorem Elements.ne_close {s r r' : List Char} {vs : List Value} (h : skipWs s = ']' :: r) :
    ¬ Elements s vs r' := by
  have hno : ∀ {v t}, ¬ Reads (skipWs s) v t := by
    rw [h]
    intro v t hv
    cases hv with
    | number hv => exact absurd (scanNumber_ne hv) (by decide)
  rintro (⟨hv, -⟩ | ⟨hv, -⟩) <;> exact hno hv

/-- …and no member with a closing brace. -/
theorem Members.ne_close {s r r' : List Char} {ms : List (List Char × Value)}
    (h : skipWs s = '}' :: r) : ¬ Members s ms r' := by
  rintro (⟨hquote, -⟩ | ⟨hquote, -⟩) <;> rw [h] at hquote <;> cases hquote

/-- The name of a member is read in one way. -/
theorem Members.name_unique {s t k u w t' k' u' w' : List Char} (hquote : skipWs s = '"' :: t)
    (hk : Chars t k u) (hcolon : skipWs u = ':' :: w) (hquote' : skipWs s = '"' :: t')
    (hk' : Chars t' k' u') (hcolon' : skipWs u' = ':' :: w') : k = k' ∧ w = w' := by
  rw [hquote] at hquote'
  cases hquote'
  obtain ⟨rfl, rfl⟩ := hk.unique hk'
  rw [hcolon] at hcolon'
  cases hcolon'
  exact ⟨rfl, rfl⟩

mutual

/-- **A value is read in one way.** -/
theorem Reads.unique {s v r v' r'} (h : Reads s v r) (h' : Reads s v' r') : v = v' ∧ r = r' := by
  cases h with
  | null =>
    cases h' with
    | null => exact ⟨rfl, rfl⟩
    | number h' => exact absurd (scanNumber_ne h') (by decide)
  | true =>
    cases h' with
    | true => exact ⟨rfl, rfl⟩
    | number h' => exact absurd (scanNumber_ne h') (by decide)
  | false =>
    cases h' with
    | false => exact ⟨rfl, rfl⟩
    | number h' => exact absurd (scanNumber_ne h') (by decide)
  | number h =>
    cases h' with
    | number h' =>
      rw [h] at h'
      cases h'
      exact ⟨rfl, rfl⟩
    | _ => exact absurd (scanNumber_ne h) (by decide)
  | string h =>
    cases h' with
    | string h' =>
      obtain ⟨rfl, rfl⟩ := h.unique h'
      exact ⟨rfl, rfl⟩
    | number h' => exact absurd (scanNumber_ne h') (by decide)
  | emptyArray h =>
    cases h' with
    | emptyArray h' =>
      rw [h] at h'
      cases h'
      exact ⟨rfl, rfl⟩
    | array h' => exact absurd h' (Elements.ne_close h)
    | number h' => exact absurd (scanNumber_ne h') (by decide)
  | array h =>
    cases h' with
    | array h' =>
      obtain ⟨rfl, rfl⟩ := h.unique h'
      exact ⟨rfl, rfl⟩
    | emptyArray h' => exact absurd h (Elements.ne_close h')
    | number h' => exact absurd (scanNumber_ne h') (by decide)
  | emptyObject h =>
    cases h' with
    | emptyObject h' =>
      rw [h] at h'
      cases h'
      exact ⟨rfl, rfl⟩
    | object h' => exact absurd h' (Members.ne_close h)
    | number h' => exact absurd (scanNumber_ne h') (by decide)
  | object h =>
    cases h' with
    | object h' =>
      obtain ⟨rfl, rfl⟩ := h.unique h'
      exact ⟨rfl, rfl⟩
    | emptyObject h' => exact absurd h (Members.ne_close h')
    | number h' => exact absurd (scanNumber_ne h') (by decide)

theorem Elements.unique {s vs r vs' r'} (h : Elements s vs r) (h' : Elements s vs' r') :
    vs = vs' ∧ r = r' := by
  cases h with
  | last hv hend =>
    cases h' with
    | last hv' hend' =>
      obtain ⟨rfl, rfl⟩ := hv.unique hv'
      rw [hend] at hend'
      cases hend'
      exact ⟨rfl, rfl⟩
    | cons hv' hcomma =>
      obtain ⟨rfl, rfl⟩ := hv.unique hv'
      rw [hend] at hcomma
      cases hcomma
  | cons hv hcomma hvs =>
    cases h' with
    | last hv' hend' =>
      obtain ⟨rfl, rfl⟩ := hv.unique hv'
      rw [hcomma] at hend'
      cases hend'
    | cons hv' hcomma' hvs' =>
      obtain ⟨rfl, rfl⟩ := hv.unique hv'
      rw [hcomma] at hcomma'
      cases hcomma'
      obtain ⟨rfl, rfl⟩ := hvs.unique hvs'
      exact ⟨rfl, rfl⟩

theorem Members.unique {s ms r ms' r'} (h : Members s ms r) (h' : Members s ms' r') :
    ms = ms' ∧ r = r' := by
  cases h with
  | last hquote hk hcolon hv hend =>
    cases h' with
    | last hquote' hk' hcolon' hv' hend' =>
      obtain ⟨rfl, rfl⟩ := Members.name_unique hquote hk hcolon hquote' hk' hcolon'
      obtain ⟨rfl, rfl⟩ := hv.unique hv'
      rw [hend] at hend'
      cases hend'
      exact ⟨rfl, rfl⟩
    | cons hquote' hk' hcolon' hv' hcomma' =>
      obtain ⟨rfl, rfl⟩ := Members.name_unique hquote hk hcolon hquote' hk' hcolon'
      obtain ⟨rfl, rfl⟩ := hv.unique hv'
      rw [hend] at hcomma'
      cases hcomma'
  | cons hquote hk hcolon hv hcomma hms =>
    cases h' with
    | last hquote' hk' hcolon' hv' hend' =>
      obtain ⟨rfl, rfl⟩ := Members.name_unique hquote hk hcolon hquote' hk' hcolon'
      obtain ⟨rfl, rfl⟩ := hv.unique hv'
      rw [hcomma] at hend'
      cases hend'
    | cons hquote' hk' hcolon' hv' hcomma' hms' =>
      obtain ⟨rfl, rfl⟩ := Members.name_unique hquote hk hcolon hquote' hk' hcolon'
      obtain ⟨rfl, rfl⟩ := hv.unique hv'
      rw [hcomma] at hcomma'
      cases hcomma'
      obtain ⟨rfl, rfl⟩ := hms.unique hms'
      exact ⟨rfl, rfl⟩

end

/-- **A text denotes at most one value.** -/
theorem Text.unique {s : List Char} {v v' : Value} (h : Text s v) (h' : Text s v') : v = v' :=
  h.choose_spec.1.unique h'.choose_spec.1 |>.1

open Classical in
/-- **The standard reader**: the value a text denotes, if it is a JSON text. -/
noncomputable def decode (s : List Char) : Option Value :=
  if h : ∃ v, Text s v then some h.choose else none

theorem decode_eq_some {s : List Char} {v : Value} : decode s = some v ↔ Text s v := by
  rw [decode]
  split_ifs with h
  · refine ⟨fun hv => Option.some.inj hv ▸ h.choose_spec, fun hv => ?_⟩
    rw [h.choose_spec.unique hv]
  · exact ⟨fun hv => absurd hv (by simp), fun hv => absurd ⟨v, hv⟩ h⟩

end JsonText
