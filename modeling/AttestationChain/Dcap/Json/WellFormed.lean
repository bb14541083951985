import AttestationChain.Dcap.Json.Lexemes

/-!
# Dcap/Json/WellFormed — the well-formed texts

The grammar that the parser is meant for, of documents without fractions and exponents.  `Strict P`
is a value of the grammar that meets the demands `P`; a string is given with what `parse_string`
keeps of it.
-/

namespace Dcap.JSON

/-! ## Tokens -/

/-- `ws`. -/
def isBlank (c : UInt8) : Bool := c = 32 || c = 9 || c = 10 || c = 13

def skipBlanks (s : Bytes) : Bytes := s.dropWhile isBlank

/-- **A string**, behind its opening quote: what is kept of it, and what is behind its closing
one. -/
inductive Literal : Bytes → Bytes → Bytes → Prop
  | close {r} : Literal (34 :: r) [] r
  | char {c s val r} (hc : 32 ≤ c) (hquote : c ≠ 34) (hescape : c ≠ 92) (h : Literal s val r) :
      Literal (c :: s) (c :: val) r
  | escape {e s val r} (he : e ∈ ascii "\"\\/bfnrt") (h : Literal s val r) :
      Literal (92 :: e :: s) (unescape e :: val) r
  | unicode {h₁ h₂ h₃ h₄ s val r} (hdigits : [h₁, h₂, h₃, h₄].all isHexDigit = true)
      (h : Literal s val r) :
      Literal (92 :: 117 :: h₁ :: h₂ :: h₃ :: h₄ :: s) (92 :: 117 :: h₁ :: h₂ :: h₃ :: h₄ :: val) r

/-- **An integer**: no zero in front of other digits, and the value fits a `long`. -/
def IsInteger (w : Bytes) : Prop :=
  (∃ ds, (w = ds ∨ w = 45 :: ds) ∧ ds ≠ [] ∧ ds.all isDigit = true ∧
    (ds.head? = some 48 → ds = [48])) ∧
  -2 ^ 63 ≤ integerValue w ∧ integerValue w < 2 ^ 63

/-! ## Values -/

/-- **What is asked of a value** beyond its form: of a string, by whether it is a key and by what is
kept of it, how many characters stand behind a brace at least, and how many elements an array may
have. -/
structure Demands where
  string : Bool → Bytes → Prop
  room : ℕ
  size : ℕ → Prop

/-- The same of a text with more behind it. -/
def Demands.before (P : Demands) (n : ℕ) : Demands := { P with room := P.room + n }

/-- What meets one demand meets another. -/
structure Demands.Implies (P Q : Demands) : Prop where
  string : ∀ key val, P.string key val → Q.string key val
  room : Q.room ≤ P.room
  size : ∀ n, P.size n → Q.size n

section Grammar

variable (P : Demands)

mutual

/-- **A value**, and what is behind it. -/
inductive Strict : Bytes → Bytes → Prop
  | word {w r} (hw : w ∈ [ascii "true", ascii "false", ascii "null"]) : Strict (w ++ r) r
  | integer {w r} (hw : IsInteger w) : Strict (w ++ r) r
  | string {s val r} (h : Literal s val r) (hP : P.string false val) : Strict (34 :: s) r
  | emptyArray {s r} (h : skipBlanks s = 93 :: r) : Strict (91 :: s) r
  | array {n s r} (h : StrictElements n s r) (hn : P.size n) : Strict (91 :: s) r
  | emptyObject {s r} (h : skipBlanks s = 125 :: r) (hroom : P.room ≤ s.length) :
      Strict (123 :: s) r
  | object {s r} (h : StrictMembers s r) (hroom : P.room ≤ s.length) : Strict (123 :: s) r

/-- So many elements, with their closing bracket. -/
inductive StrictElements : ℕ → Bytes → Bytes → Prop
  | last {s t r} (hv : Strict (skipBlanks s) t) (hend : skipBlanks t = 93 :: r) :
      StrictElements 1 s r
  | cons {n s t u r} (hv : Strict (skipBlanks s) t) (hcomma : skipBlanks t = 44 :: u)
      (hrest : StrictElements n u r) : StrictElements (n + 1) s r

inductive StrictMembers : Bytes → Bytes → Prop
  | last {s t val u w x r} (hquote : skipBlanks s = 34 :: t) (hkey : Literal t val u)
      (hP : P.string true val) (hcolon : skipBlanks u = 58 :: w) (hv : Strict (skipBlanks w) x)
      (hend : skipBlanks x = 125 :: r) : StrictMembers s r
  | cons {s t val u w x y r} (hquote : skipBlanks s = 34 :: t) (hkey : Literal t val u)
      (hP : P.string true val) (hcolon : skipBlanks u = 58 :: w) (hv : Strict (skipBlanks w) x)
      (hcomma : skipBlanks x = 44 :: y) (hrest : StrictMembers y r) : StrictMembers s r

end

/-- **A text** is one value with nothing but blanks around it. -/
def TextOf (s : Bytes) : Prop := ∃ r, Strict P (skipBlanks s) r ∧ skipBlanks r = []

end Grammar

/-- **A well-formed text**, whatever its strings are and however long it is. -/
def WellFormed (s : Bytes) : Prop := TextOf ⟨fun _ _ => True, 0, fun _ => True⟩ s

mutual

/-- Less may be asked. -/
theorem Strict.mono {P Q : Demands} (hPQ : P.Implies Q) {s r : Bytes} (h : Strict P s r) :
    Strict Q s r :=
  match h with
  | .word hw => .word hw
  | .integer hw => .integer hw
  | .string h hP => .string h (hPQ.string _ _ hP)
  | .emptyArray h => .emptyArray h
  | .array h hn => .array (h.mono hPQ) (hPQ.size _ hn)
  | .emptyObject h hroom => .emptyObject h (hPQ.room.trans hroom)
  | .object h hroom => .object (h.mono hPQ) (hPQ.room.trans hroom)

theorem StrictElements.mono {P Q : Demands} (hPQ : P.Implies Q) {n : ℕ} {s r : Bytes}
    (h : StrictElements P n s r) : StrictElements Q n s r :=
  match h with
  | .last hv hend => .last (hv.mono hPQ) hend
  | .cons hv hcomma hrest => .cons (hv.mono hPQ) hcomma (hrest.mono hPQ)

theorem StrictMembers.mono {P Q : Demands} (hPQ : P.Implies Q) {s r : Bytes}
    (h : StrictMembers P s r) : StrictMembers Q s r :=
  match h with
  | .last hquote hkey hP hcolon hv hend =>
    .last hquote hkey (hPQ.string _ _ hP) hcolon (hv.mono hPQ) hend
  | .cons hquote hkey hP hcolon hv hcomma hrest =>
    .cons hquote hkey (hPQ.string _ _ hP) hcolon (hv.mono hPQ) hcomma (hrest.mono hPQ)

end

/-! ## With more behind the text -/

theorem skipBlanks_append {s r : Bytes} {c : UInt8} (h : skipBlanks s = c :: r) (t : Bytes) :
    skipBlanks (s ++ t) = c :: (r ++ t) := by
  induction s with
  | nil => cases h
  | cons d s ih =>
    by_cases hd : isBlank d
    · rw [skipBlanks, List.dropWhile_cons_of_pos hd] at h
      rw [List.cons_append, skipBlanks, List.dropWhile_cons_of_pos hd]
      exact ih h
    · rw [skipBlanks, List.dropWhile_cons_of_neg hd] at h
      cases h
      rw [List.cons_append, skipBlanks, List.dropWhile_cons_of_neg hd]

theorem skipBlanks_append_of_ne {s : Bytes} (h : skipBlanks s ≠ []) (t : Bytes) :
    skipBlanks (s ++ t) = skipBlanks s ++ t := by
  obtain ⟨c, r, hs⟩ := List.exists_cons_of_ne_nil h
  rw [hs, skipBlanks_append hs, List.cons_append]

theorem Literal.append {s val r : Bytes} (h : Literal s val r) (t : Bytes) :
    Literal (s ++ t) val (r ++ t) := by
  induction h with
  | close => exact .close
  | char hc hquote hescape _ ih => exact .char hc hquote hescape ih
  | escape he _ ih => exact .escape he ih
  | unicode hdigits _ ih => exact .unicode hdigits ih

theorem IsInteger.ne_nil {w : Bytes} (h : IsInteger w) : w ≠ [] := by
  obtain ⟨⟨ds, rfl | rfl, hne, -⟩, -⟩ := h
  · exact hne
  · exact List.cons_ne_nil _ _

variable {P : Demands}

theorem Strict.ne_nil {s r : Bytes} (h : Strict P s r) : s ≠ [] := by
  cases h with
  | word hw =>
    simp only [List.mem_cons, List.not_mem_nil, or_false] at hw
    rcases hw with rfl | rfl | rfl
    · exact List.cons_ne_nil _ _
    · exact List.cons_ne_nil _ _
    · exact List.cons_ne_nil _ _
  | integer hw => exact List.append_ne_nil_of_left_ne_nil hw.ne_nil _
  | string => exact List.cons_ne_nil _ _
  | emptyArray => exact List.cons_ne_nil _ _
  | array => exact List.cons_ne_nil _ _
  | emptyObject => exact List.cons_ne_nil _ _
  | object => exact List.cons_ne_nil _ _

theorem before_room_le {s : Bytes} (h : P.room ≤ s.length) (t : Bytes) :
    (P.before t.length).room ≤ (s ++ t).length := by
  rw [List.length_append]
  exact Nat.add_le_add_right h _

mutual

/-- A value is one with anything behind it, which gives the more room. -/
theorem Strict.append {s r : Bytes} (h : Strict P s r) (t : Bytes) :
    Strict (P.before t.length) (s ++ t) (r ++ t) :=
  match h with
  | .word hw => by
    rw [List.append_assoc]
    exact .word hw
  | .integer hw => by
    rw [List.append_assoc]
    exact .integer hw
  | .string h hP => .string (h.append t) hP
  | .emptyArray h => .emptyArray (skipBlanks_append h t)
  | .array h hn => .array (h.append t) hn
  | .emptyObject h hroom => .emptyObject (skipBlanks_append h t) (before_room_le hroom t)
  | .object h hroom => .object (h.append t) (before_room_le hroom t)

theorem StrictElements.append {n : ℕ} {s r : Bytes} (h : StrictElements P n s r) (t : Bytes) :
    StrictElements (P.before t.length) n (s ++ t) (r ++ t) :=
  match h with
  | .last hv hend =>
    .last (skipBlanks_append_of_ne hv.ne_nil t ▸ hv.append t) (skipBlanks_append hend t)
  | .cons hv hcomma hrest =>
    .cons (skipBlanks_append_of_ne hv.ne_nil t ▸ hv.append t) (skipBlanks_append hcomma t)
      (hrest.append t)

theorem StrictMembers.append {s r : Bytes} (h : StrictMembers P s r) (t : Bytes) :
    StrictMembers (P.before t.length) (s ++ t) (r ++ t) :=
  match h with
  | .last hquote hkey hP hcolon hv hend =>
    .last (skipBlanks_append hquote t) (hkey.append t) hP (skipBlanks_append hcolon t)
      (skipBlanks_append_of_ne hv.ne_nil t ▸ hv.append t) (skipBlanks_append hend t)
  | .cons hquote hkey hP hcolon hv hcomma hrest =>
    .cons (skipBlanks_append hquote t) (hkey.append t) hP (skipBlanks_append hcolon t)
      (skipBlanks_append_of_ne hv.ne_nil t ▸ hv.append t) (skipBlanks_append hcomma t)
      (hrest.append t)

end

/-! ## What the parser makes of the tokens -/

theorem isSpace_of_isBlank {c : UInt8} (h : isBlank c = true) : isSpace c = true := by
  simp only [isBlank, Bool.or_eq_true, decide_eq_true_eq] at h
  rcases h with ((rfl | rfl) | rfl) | rfl
  · rfl
  · rfl
  · rfl
  · rfl

theorem consumeWs_skipBlanks (s : Bytes) : consumeWs (skipBlanks s) = consumeWs s := by
  induction s with
  | nil => rfl
  | cons c s ih =>
    by_cases hc : isBlank c
    · rw [skipBlanks, List.dropWhile_cons_of_pos hc, consumeWs, if_pos (isSpace_of_isBlank hc)]
      exact ih
    · rw [skipBlanks, List.dropWhile_cons_of_neg hc]

theorem consumeWs_of_skipBlanks {s r : Bytes} {c : UInt8} (h : skipBlanks s = c :: r)
    (hc : isSpace c = false) : consumeWs s = .ok (c :: r) := by
  rw [← consumeWs_skipBlanks, h, consumeWs, if_neg (by simp [hc])]

theorem Literal.scanString_eq {s val r : Bytes} (h : Literal s val r) :
    scanString s = .ok (some val, r) := by
  induction h with
  | close => exact scanString_quote _
  | char _ hquote hescape _ ih =>
    rw [scanString_cons hquote hescape, ih]
    rfl
  | escape he _ ih =>
    have hne : ∀ e ∈ ascii "\"\\/bfnrt", e ≠ 117 := forall_mem_of_all (by decide)
    rw [scanString_escape (hne _ he), ih]
    rfl
  | unicode hdigits _ ih =>
    rw [scanString_unicode, if_pos hdigits, ih]
    rfl

theorem IsInteger.isDigits {w : Bytes} (h : IsInteger w) : IsDigits w := by
  obtain ⟨⟨ds, hw, hne, hds, -⟩, -⟩ := h
  exact ⟨ds, hw, hne, hds⟩

end Dcap.JSON
