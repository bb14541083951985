import AttestationChain.Dcap.Json.Tokens

/-!
# Dcap/Json/Grammar — the texts the parser takes, and those it gives up

The grammar of a memory by its text alone, errors included.  `Walk status mem v status' r`: from the
front of `mem` there is a value `v` to be had, with `r` behind it, and an error on the way makes
`status` into `status'`.  No walk runs out of the memory, meets a number out of its range or an
array of too many elements.

The grammar is lenient where the parser is: keys of any kind, any escape but a bad `\u`, a number
spelled with anything a number may hold.
-/

namespace Dcap.JSON

variable {Double : Type}

/-! ## Tokens -/

/-- **What stands behind blanks**, of which there may be none. -/
def Stands (mem m : Bytes) : Prop :=
  ∃ blanks, blanks.all isSpace = true ∧ mem = blanks ++ m ∧ ∃ c ∈ m.head?, isSpace c = false

/-- **A string as it is spelled**, behind its opening quote: what is kept of it, and what is behind
its closing one.  Of a string with a bad `\u` nothing is kept. -/
inductive Spelled : Bytes → Option Bytes → Bytes → Prop
  | close {r} : Spelled (34 :: r) (some []) r
  | char {c s val r} (hquote : c ≠ 34) (hescape : c ≠ 92) (h : Spelled s val r) :
      Spelled (c :: s) (val.map ([c] ++ ·)) r
  | escape {e s val r} (he : e ≠ 117) (h : Spelled s val r) :
      Spelled (92 :: e :: s) (val.map ([unescape e] ++ ·)) r
  | unicode {h₁ h₂ h₃ h₄ s val r} (hdigits : [h₁, h₂, h₃, h₄].all isHexDigit = true)
      (h : Spelled s val r) :
      Spelled (92 :: 117 :: h₁ :: h₂ :: h₃ :: h₄ :: s)
        (val.map ([92, 117, h₁, h₂, h₃, h₄] ++ ·)) r
  | misspelled {s} (h : (s.take 4).all isHexDigit = false) :
      Spelled (92 :: 117 :: s) none (117 :: s)

/-- **What a string stands for.**  An even hash has no less than 64 digits, and an odd buffer just
the one. -/
inductive Denotes : Bytes → JSON Double → Prop
  | hash {hex block} (h : hexstringToBytes hex = some block) (hlen : 64 ≤ hex.length) :
      Denotes (hashTag ++ hex) (.hash (block.take 32))
  | oddHash {hex} (hodd : hex.length % 2 = 1) :
      Denotes (hashTag ++ hex) (.string (hashTag ++ hex))
  | buffer {hex block} (h : hexstringToBytes hex = some block) :
      Denotes (buffTag ++ hex) (.buffer block)
  | digit {c} : Denotes (buffTag ++ [c]) (.buffer [])
  | plain {val} (hhash : ¬ hashTag <+: val) (hbuff : ¬ buffTag <+: val) : Denotes val (.string val)

/-- What stands between the `e` of an exponent and its digits, and the sign that is kept of it. -/
inductive Sign : Bytes → Bytes → Prop
  | minus (c) : Sign [45, c] [45]
  | other {c} (hc : c ≠ 45) : Sign [c] []

/-- The double a mantissa stands for: its own with a dot, and that of a `long` without. -/
def IsMantissa (doubles : Doubles Double) (w : Bytes) (x : Double) : Prop :=
  (46 ∈ w ∧ doubles.stod w = some x) ∨ (46 ∉ w ∧ ∃ i, stol w = .ok i ∧ x = doubles.ofLong i)

/-- **A number**, and what is behind it: what it stands for, if what is behind it may follow one;
otherwise the first character behind it is lost. -/
inductive NumberAt (doubles : Doubles Double) : Bytes → Option (JSON Double) → Bytes → Prop
  | integer {w d r i} (hw : w.all isNumberChar = true) (hd : endsNumber d = true) (hdot : 46 ∉ w)
      (hi : stol w = .ok i) : NumberAt doubles (w ++ d :: r) (some (.integral i)) (d :: r)
  | fraction {w d r x} (hw : w.all isNumberChar = true) (hd : endsNumber d = true) (hdot : 46 ∈ w)
      (hx : doubles.stod w = some x) :
      NumberAt doubles (w ++ d :: r) (some (.floating (doubles.mul x (doubles.pow10 0)))) (d :: r)
  | exponent {w e s sign ds d r x exp} (hw : w.all isNumberChar = true) (he : e = 69 ∨ e = 101)
      (hs : Sign s sign) (hds : ds.all isDigit = true) (hd : endsNumber d = true)
      (hexp : stol (sign ++ ds) = .ok exp) (hx : IsMantissa doubles w x) :
      NumberAt doubles (w ++ e :: (s ++ (ds ++ d :: r)))
        (some (.floating (doubles.mul x (doubles.pow10 exp)))) (d :: r)
  | bad {w d r} (hw : w.all isNumberChar = true) (hd : endsNumber d = false)
      (hd' : isNumberChar d = false) (he : ¬ (d = 69 ∨ d = 101)) :
      NumberAt doubles (w ++ d :: r) none r
  | badExponent {w e s sign ds d r} (hw : w.all isNumberChar = true) (he : e = 69 ∨ e = 101)
      (hs : Sign s sign) (hds : ds.all isDigit = true) (hd : endsNumber d = false)
      (hd' : isDigit d = false) : NumberAt doubles (w ++ e :: (s ++ (ds ++ d :: r))) none r

/-- **The words**, and what they stand for. -/
inductive Word : Bytes → JSON Double → Prop
  | yes : Word (ascii "true") (.boolean true)
  | no : Word (ascii "false") (.boolean false)
  | null : Word (ascii "null") .null

/-- As many characters as are looked at for a word that is not there: of a string, those there
are. -/
def Overload.Room (overload : Overload) (n : ℕ) (mem : Bytes) : Prop :=
  overload = .bytes → n ≤ mem.length

/-- **The kind of an object**, behind its opening brace: its empty object, and what is behind the
kind.  Where there is none, no fewer characters follow than the longer kind has. -/
inductive KindAt : Bytes → JSON Double → Bytes → Prop
  | fio {r} : KindAt (ascii "fio" ++ r) (.fioObject [] []) r
  | flat {r} : KindAt (ascii "flat" ++ r) (.flatObject [] []) r
  | plain {s} (hfio : ¬ ascii "fio" <+: s) (hflat : ¬ ascii "flat" <+: s) (hroom : 4 ≤ s.length) :
      KindAt s (.object []) s

/-! ## Values -/

section Walk

variable (doubles : Doubles Double) (overload : Overload)

mutual

/-- **A value to be had from the front of a memory.** -/
inductive Walk : CrustStatus → Bytes → JSON Double → CrustStatus → Bytes → Prop
  | string {status mem s val v r} (h : Stands mem (34 :: s)) (hs : Spelled s (some val) r)
      (hv : Denotes val v) : Walk status mem v status r
  | badString {status mem s r} (h : Stands mem (34 :: s)) (hs : Spelled s none r) :
      Walk status mem (.string []) .jsonStringError r
  | word {status mem w v r} (h : Stands mem (w ++ r)) (hw : Word w v) : Walk status mem v status r
  | badBool {status mem c s} (h : Stands mem (c :: s)) (hc : c = 116 ∨ c = 102)
      (htrue : ¬ ascii "true" <+: c :: s) (hfalse : ¬ ascii "false" <+: c :: s)
      (hroom : overload.Room 5 (c :: s)) : Walk status mem .null .jsonBoolError (c :: s)
  | badNull {status mem s} (h : Stands mem (110 :: s)) (hnull : ¬ ascii "null" <+: 110 :: s)
      (hroom : overload.Room 4 (110 :: s)) : Walk status mem .null .jsonNullError (110 :: s)
  | number {status mem c s v r} (h : Stands mem (c :: s)) (hc : isDigit c ∨ c = 45)
      (hn : NumberAt doubles (c :: s) (some v) r) : Walk status mem v status r
  | badNumber {status mem c s r} (h : Stands mem (c :: s)) (hc : isDigit c ∨ c = 45)
      (hn : NumberAt doubles (c :: s) none r) : Walk status mem .null .jsonNumberError r
  | unknown {status mem c s} (h : Stands mem (c :: s)) (hc : c ∉ ascii "[\x7b\"tfn-")
      (hdigit : isDigit c = false) : Walk status mem .null .jsonStartingError (c :: s)
  | emptyArray {status mem s r} (h : Stands mem (91 :: s)) (hend : Stands s (93 :: r)) :
      Walk status mem (.array []) status r
  | array {status mem s c s' v status' r} (h : Stands mem (91 :: s)) (hs : Stands s (c :: s'))
      (hc : c ≠ 93) (hvs : WalkElements status [] (c :: s') v status' r) :
      Walk status mem v status' r
  | emptyObject {status mem s obj s' r} (h : Stands mem (123 :: s)) (hkind : KindAt s obj s')
      (hend : Stands s' (125 :: r)) : Walk status mem obj status r
  | object {status mem s obj s' c s'' v status' r} (h : Stands mem (123 :: s))
      (hkind : KindAt s obj s') (hs : Stands s' (c :: s'')) (hc : c ≠ 125)
      (hms : WalkMembers status obj (c :: s'') v status' r) : Walk status mem v status' r

/-- The elements left of an array, of which there are fewer than `2 ^ 32`.  An array with an error
is empty. -/
inductive WalkElements :
    CrustStatus → List (JSON Double) → Bytes → JSON Double → CrustStatus → Bytes → Prop
  | cons {status list mem v status' r s w status'' x} (hv : Walk status mem v status' r)
      (hlist : list.length + 1 < uint32Size) (hcomma : Stands r (44 :: s))
      (hvs : WalkElements status' (list ++ [v]) s w status'' x) :
      WalkElements status list mem w status'' x
  | last {status list mem v status' r s} (hv : Walk status mem v status' r)
      (hlist : list.length + 1 < uint32Size) (hend : Stands r (93 :: s)) :
      WalkElements status list mem (.array (list ++ [v])) status' s
  | error {status list mem v status' r c s} (hv : Walk status mem v status' r)
      (hlist : list.length + 1 < uint32Size) (h : Stands r (c :: s)) (hcomma : c ≠ 44)
      (hend : c ≠ 93) : WalkElements status list mem (.array []) .jsonArrayError (c :: s)

/-- The members left of an object, each of them put.  An object with an error has those in front of
it. -/
inductive WalkMembers : CrustStatus → JSON Double → Bytes → JSON Double → CrustStatus → Bytes → Prop
  | noColon {status obj mem key status' r c s} (hkey : Walk status mem key status' r)
      (h : Stands r (c :: s)) (hcolon : c ≠ 58) :
      WalkMembers status obj mem obj .jsonObjectError (c :: s)
  | cons {status obj mem key status₁ r s v status₂ x obj' y w status₃ z}
      (hkey : Walk status mem key status₁ r) (hcolon : Stands r (58 :: s))
      (hv : Walk status₁ s v status₂ x) (hput : putMember key obj v = .ok obj')
      (hcomma : Stands x (44 :: y)) (hms : WalkMembers status₂ obj' y w status₃ z) :
      WalkMembers status obj mem w status₃ z
  | last {status obj mem key status₁ r s v status₂ x obj' y}
      (hkey : Walk status mem key status₁ r) (hcolon : Stands r (58 :: s))
      (hv : Walk status₁ s v status₂ x) (hput : putMember key obj v = .ok obj')
      (hend : Stands x (125 :: y)) : WalkMembers status obj mem obj' status₂ y
  | error {status obj mem key status₁ r s v status₂ x obj' c y}
      (hkey : Walk status mem key status₁ r) (hcolon : Stands r (58 :: s))
      (hv : Walk status₁ s v status₂ x) (hput : putMember key obj v = .ok obj')
      (h : Stands x (c :: y)) (hcomma : c ≠ 44) (hend : c ≠ 125) :
      WalkMembers status obj mem obj' .jsonObjectError (c :: y)

end

end Walk

end Dcap.JSON
