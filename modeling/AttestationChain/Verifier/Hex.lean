import AttestationChain.Machinery.Bytes
import Mathlib.Tactic.Common

/-!
# Verifier/Hex — `decode_hex`, and the texts it survives

`decode_hex` slices its text two bytes at a time, reads each slice as a number and collects.  A
slice is allowed only between character boundaries, so the walk can *panic* as well as fail, and
its one caller unwraps it.  `decodeHex_eq_ok` says which texts it decodes and to what: pairs of
hexadecimal digits, a `+` standing where a first digit may (`HexText`).
-/

namespace Verifier

/-- The ways the worker's code can panic. -/
inductive Panic
  | sliceError
  | unwrapOnErr
  | indexOutOfBounds
  deriving DecidableEq

/-- `ParseIntError`, as far as an unsigned byte meets it. -/
inductive ParseIntError
  | empty
  | invalidDigit
  | posOverflow
  deriving DecidableEq

/-! ## Slices -/

/-- `str::is_char_boundary`: the ends, and every byte that continues no character. -/
def isCharBoundary (s : Bytes) (i : ℕ) : Bool :=
  i = 0 || i = s.length || s[i]?.any fun b => b < 128 || 192 ≤ b

/-- `&s[i..j]`. -/
def slice (s : Bytes) (i j : ℕ) : Except Panic Bytes :=
  if i ≤ j ∧ isCharBoundary s i ∧ isCharBoundary s j then .ok ((s.drop i).take (j - i))
  else .error .sliceError

/-! ## Numbers -/

/-- `char::to_digit(16)`, of a byte. -/
def toDigit (c : UInt8) : Option ℕ :=
  if 48 ≤ c ∧ c ≤ 57 then some (c.toNat - 48)
  else if 97 ≤ c ∧ c ≤ 102 then some (c.toNat - 87)
  else if 65 ≤ c ∧ c ≤ 70 then some (c.toNat - 55)
  else none

/-- The digits of a number, its `+` taken off; a sign alone is none. -/
def stripSign : Bytes → Except ParseIntError Bytes
  | [] => .error .empty
  | [c] => if c = 43 ∨ c = 45 then .error .invalidDigit else .ok [c]
  | c :: cs => if c = 43 then .ok cs else .ok (c :: cs)

/-- The checked accumulation of `from_str_radix`. -/
def accumulate : Bytes → ℕ → Except ParseIntError ℕ
  | [], result => .ok result
  | c :: cs, result =>
    match toDigit c with
    | none => .error .invalidDigit
    | some x =>
      if result * 16 + x < 256 then accumulate cs (result * 16 + x) else .error .posOverflow

/-- `u8::from_str_radix(src, 16)`. -/
def fromStrRadix16 (src : Bytes) : Except ParseIntError UInt8 := do
  let digits ← stripSign src
  let result ← accumulate digits 0
  .ok result.toUInt8

/-! ## The walk -/

/-- One item of the walk: the number two bytes spell. -/
def decodeAt (s : Bytes) (i : ℕ) : Except Panic (Except ParseIntError UInt8) := do
  let src ← slice s i (i + 2)
  .ok (fromStrRadix16 src)

/-- `collect::<Result<Vec<_>, _>>`: item by item, until one fails. -/
def collect (item : ℕ → Except Panic (Except ParseIntError UInt8)) :
    List ℕ → Except Panic (Except ParseIntError Bytes)
  | [] => .ok (.ok [])
  | i :: is => do
    match ← item i with
    | .error e => .ok (.error e)
    | .ok b =>
      match ← collect item is with
      | .error e => .ok (.error e)
      | .ok bs => .ok (.ok (b :: bs))

def decodeHex (s : Bytes) : Except Panic (Except ParseIntError Bytes) :=
  collect (decodeAt s) (List.range' 0 ((s.length + 1) / 2) 2)

/-! ## What it decodes -/

/-- The byte a pair spells. -/
def pairValue (a b : UInt8) : Option UInt8 :=
  if a = 43 then (toDigit b).map Nat.toUInt8
  else (toDigit a).bind fun x => (toDigit b).map fun y => (x * 16 + y).toUInt8

/-- The bytes a text of pairs spells. -/
def decodePairs : Bytes → Option Bytes
  | [] => some []
  | [_] => none
  | a :: b :: s => (pairValue a b).bind fun v => (decodePairs s).map fun vs => v :: vs

/-- **The texts `decode_hex` survives**: pairs of hexadecimal digits, where `+` may stand for a
first one. -/
def HexText : Bytes → Prop
  | [] => True
  | [_] => False
  | a :: b :: s => (a = 43 ∨ (toDigit a).isSome) ∧ (toDigit b).isSome ∧ HexText s

theorem toDigit_lt {c : UInt8} {x : ℕ} (h : toDigit c = some x) : x < 16 := by
  simp only [toDigit, UInt8.le_iff_toNat_le] at h
  split_ifs at h <;> simp at * <;> omega

/-- A digit is an ASCII character. -/
theorem lt_of_toDigit {c : UInt8} {x : ℕ} (h : toDigit c = some x) : c < 128 := by
  simp only [toDigit, UInt8.le_iff_toNat_le] at h
  rw [UInt8.lt_iff_toNat_lt]
  split_ifs at h <;> simp at * <;> omega

theorem pairValue_isSome {a b : UInt8} :
    (pairValue a b).isSome ↔ (a = 43 ∨ (toDigit a).isSome) ∧ (toDigit b).isSome := by
  rw [pairValue]
  split_ifs with ha
  · simp [ha]
  · cases toDigit a <;> simp [ha]

/-- A pair starts with an ASCII character. -/
theorem lt_of_pairValue {a b v : UInt8} (h : pairValue a b = some v) : a < 128 := by
  have hsome : (pairValue a b).isSome := by simp [h]
  rcases (pairValue_isSome.1 hsome).1 with rfl | ha
  · decide
  · obtain ⟨x, hx⟩ := Option.isSome_iff_exists.1 ha
    exact lt_of_toDigit hx

theorem hexText_iff (s : Bytes) : HexText s ↔ (decodePairs s).isSome := by
  induction s using decodePairs.induct with
  | case1 => simp [HexText, decodePairs]
  | case2 c => simp [HexText, decodePairs]
  | case3 a b s ih =>
    rw [HexText, decodePairs, ih, ← and_assoc, ← pairValue_isSome]
    cases pairValue a b <;> simp

theorem accumulate_cons_none {c : UInt8} (h : toDigit c = none) (cs : Bytes) (r : ℕ) :
    accumulate (c :: cs) r = .error .invalidDigit := by
  simp [accumulate, h]

theorem accumulate_cons_some {c : UInt8} {x : ℕ} (h : toDigit c = some x) (cs : Bytes) {r : ℕ}
    (hr : r < 16) : accumulate (c :: cs) r = accumulate cs (r * 16 + x) := by
  have := toDigit_lt h
  simp [accumulate, h, show r * 16 + x < 256 by omega]

/-- **The number two bytes spell** is the value of the pair. -/
theorem fromStrRadix16_pair (a b : UInt8) : (fromStrRadix16 [a, b]).toOption = pairValue a b := by
  have hsnd : ∀ {r : ℕ}, r < 16 → (accumulate [b] r).toOption = (toDigit b).map (r * 16 + ·) := by
    intro r hr
    cases hy : toDigit b with
    | none => rw [accumulate_cons_none hy]; rfl
    | some y => rw [accumulate_cons_some hy [] hr]; rfl
  have hnum : ∀ {x : Except ParseIntError ℕ}, (x >>= fun n => .ok n.toUInt8).toOption
      = x.toOption.map Nat.toUInt8 := by
    intro x
    cases x <;> rfl
  rw [fromStrRadix16, pairValue]
  split_ifs with ha
  · subst ha
    change (accumulate [b] 0 >>= fun n => .ok n.toUInt8).toOption = _
    rw [hnum, hsnd (by decide)]
    simp
  · have hstrip : stripSign [a, b] = .ok [a, b] := by rw [stripSign, if_neg ha]; simp
    rw [hstrip]
    change (accumulate [a, b] 0 >>= fun n => .ok n.toUInt8).toOption = _
    rw [hnum]
    cases hx : toDigit a with
    | none => rw [accumulate_cons_none hx]; rfl
    | some x =>
      rw [accumulate_cons_some hx [b] (by decide), hsnd (by have := toDigit_lt hx; omega)]
      simp [Function.comp_def]

/-- A slice of two bytes lies within the text. -/
theorem slice_two_eq_ok {s src : Bytes} {i : ℕ} (h : slice s i (i + 2) = .ok src) :
    ∃ a b t, s.drop i = a :: b :: t ∧ src = [a, b] := by
  rw [slice] at h
  split_ifs at h with hok
  have hlen : i + 2 ≤ s.length := by
    by_contra hlt
    have hend := hok.2.2
    rw [isCharBoundary, List.getElem?_eq_none (by omega)] at hend
    simp at hend
    omega
  obtain ⟨a, t, ht⟩ := List.exists_cons_of_length_pos (l := s.drop i) (by simp; omega)
  obtain ⟨b, u, rfl⟩ := List.exists_cons_of_length_pos (l := t) (by
    have := congrArg List.length ht
    simp at this
    omega)
  refine ⟨a, b, u, ht, ?_⟩
  rw [← Except.ok.inj h, ht]
  simp

/-- A slice between ASCII characters is allowed. -/
theorem slice_two {s t : Bytes} {i : ℕ} {a b : UInt8} (hs : s.drop i = a :: b :: t) (ha : a < 128)
    (ht : ∀ c u, t = c :: u → c < 128) : slice s i (i + 2) = .ok [a, b] := by
  have hstart : isCharBoundary s i = true := by
    have : s[i]? = some a := by rw [← List.head?_drop, hs]; rfl
    simp [isCharBoundary, this, ha]
  have hend : isCharBoundary s (i + 2) = true := by
    have hdrop : s.drop (i + 2) = t := by rw [← List.drop_drop, hs]; rfl
    have hlen : s.length = i + 2 + t.length := by
      have := congrArg List.length hs
      simp at this
      omega
    have hget : s[i + 2]? = t.head? := by rw [← List.head?_drop, hdrop]
    cases t with
    | nil => simp [isCharBoundary, hlen]
    | cons c u => simp [isCharBoundary, hget, ht c u rfl]
  rw [slice, if_pos ⟨by omega, hstart, hend⟩, hs]
  simp

/-- One item of the walk, decoded. -/
theorem decodeAt_eq_ok {s : Bytes} {i : ℕ} {v : UInt8} (h : decodeAt s i = .ok (.ok v)) :
    ∃ a b t, s.drop i = a :: b :: t ∧ pairValue a b = some v := by
  cases hsrc : slice s i (i + 2) with
  | error e => rw [decodeAt, hsrc] at h; cases h
  | ok src =>
    obtain ⟨a, b, t, hdrop, rfl⟩ := slice_two_eq_ok hsrc
    refine ⟨a, b, t, hdrop, ?_⟩
    have hval : fromStrRadix16 [a, b] = .ok v := by
      rw [decodeAt, hsrc] at h
      exact Except.ok.inj h
    rw [← fromStrRadix16_pair, hval, Except.toOption]

theorem decodeAt_pair {s t : Bytes} {i : ℕ} {a b v : UInt8} (hs : s.drop i = a :: b :: t)
    (hv : pairValue a b = some v) (ht : ∀ c u, t = c :: u → c < 128) :
    decodeAt s i = .ok (.ok v) := by
  rw [decodeAt, slice_two hs (lt_of_pairValue hv) ht]
  have hopt := fromStrRadix16_pair a b
  rw [hv] at hopt
  change Except.ok (fromStrRadix16 [a, b]) = _
  cases hnum : fromStrRadix16 [a, b] with
  | error e => rw [hnum] at hopt; cases hopt
  | ok w => rw [hnum] at hopt; rw [Option.some.inj hopt]

/-- A decoded text starts with an ASCII character. -/
theorem lt_of_decodePairs {c : UInt8} {u vs : Bytes} (h : decodePairs (c :: u) = some vs) :
    c < 128 := by
  cases u with
  | nil => cases h
  | cons d u =>
    rw [decodePairs] at h
    obtain ⟨v, hv, -⟩ := Option.bind_eq_some_iff.1 h
    exact lt_of_pairValue hv

/-- A collection succeeds exactly if its first item and the collection of the rest do. -/
theorem collect_cons_eq_ok {item : ℕ → Except Panic (Except ParseIntError UInt8)} {i : ℕ}
    {is : List ℕ} {bs : Bytes} : collect item (i :: is) = .ok (.ok bs) ↔
      ∃ v vs, item i = .ok (.ok v) ∧ collect item is = .ok (.ok vs) ∧ bs = v :: vs := by
  rw [collect]
  rcases item i with e | e | v
  · simp [bind, Except.bind]
  · simp [bind, Except.bind]
  · rcases collect item is with e | e | vs
    · simp [bind, Except.bind]
    · simp [bind, Except.bind]
    · simp [bind, Except.bind, eq_comm]

/-- **The walk over what is left** decodes it pair by pair. -/
theorem collect_decodeAt {s : Bytes} (t : Bytes) : ∀ {i : ℕ}, s.drop i = t → ∀ {bs : Bytes},
    collect (decodeAt s) (List.range' i ((t.length + 1) / 2) 2) = .ok (.ok bs) ↔
      decodePairs t = some bs := by
  induction t using decodePairs.induct with
  | case1 => intro i _ bs; simp [collect, decodePairs]
  | case2 c =>
    intro i hi bs
    -- An odd byte is left: its slice ends past the text.
    have hno : ∀ v, decodeAt s i ≠ .ok (.ok v) := by
      intro v hv
      obtain ⟨a, b, t, ht, -⟩ := decodeAt_eq_ok hv
      rw [hi] at ht
      cases ht
    simp [List.range'_succ, collect_cons_eq_ok, decodePairs, hno]
  | case3 a b t ih =>
    intro i hi bs
    have hrest : s.drop (i + 2) = t := by rw [← List.drop_drop, hi]; rfl
    have hlen : ((a :: b :: t).length + 1) / 2 = (t.length + 1) / 2 + 1 := by
      simp only [List.length_cons]
      omega
    rw [hlen, List.range'_succ, collect_cons_eq_ok, decodePairs]
    constructor
    · rintro ⟨v, vs, hv, hvs, rfl⟩
      obtain ⟨a', b', t', ht', hpair⟩ := decodeAt_eq_ok hv
      rw [hi] at ht'
      cases ht'
      rw [hpair, (ih hrest).1 hvs]
      rfl
    · intro h
      obtain ⟨v, hpair, h⟩ := Option.bind_eq_some_iff.1 h
      obtain ⟨vs, hvs, rfl⟩ := Option.map_eq_some_iff.1 h
      exact ⟨v, vs, decodeAt_pair hi hpair fun c u hc => lt_of_decodePairs (hc ▸ hvs),
        (ih hrest).2 hvs, rfl⟩

/-- **What `decode_hex` decodes**, and to what. -/
theorem decodeHex_eq_ok {s bs : Bytes} : decodeHex s = .ok (.ok bs) ↔ decodePairs s = some bs :=
  collect_decodeAt s rfl

/-- `decode_hex` succeeds on the hexadecimal texts, and on no others. -/
theorem exists_decodeHex_iff {s : Bytes} : (∃ bs, decodeHex s = .ok (.ok bs)) ↔ HexText s := by
  simp only [decodeHex_eq_ok, hexText_iff, Option.isSome_iff_exists]

end Verifier
