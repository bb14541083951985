import AttestationChain.Machinery.Bytes
import Mathlib.Data.Nat.Notation
import Mathlib.Tactic.Common

/-!
# Dcap/Utils — characters, hexadecimal texts and keys

The utilities of the service.  `hexstring` spells bytes in hexadecimal and `hexstring_to_bytes`
reads them back (`hexstringToBytes_hexstring`); the reader refuses a text of odd length and nothing
else: a character that is no digit counts as a zero, and a NUL ends the walk.
-/

namespace Dcap

/-- The ways the service can fail to answer: a memory access outside its block, a C++ exception and
a loop that does not end.  The last is the bound a recursion is given here, and is never met. -/
inductive Fault
  | outOfBounds
  | exception
  | diverges
  | outOfFuel
  deriving DecidableEq

/-- One computation behind another comes to a value just if both do. -/
theorem bind_eq_ok {α β : Type} {r : Except Fault α} {f : α → Except Fault β} {b : β} :
    (r >>= f) = .ok b ↔ ∃ a, r = .ok a ∧ f a = .ok b := by
  cases r with
  | ok a => exact ⟨fun h => ⟨a, rfl, h⟩, fun ⟨a', h, h'⟩ => Except.ok.inj h ▸ h'⟩
  | error fault => exact ⟨fun h => (by cases h), fun ⟨a', h, _⟩ => (by cases h)⟩

/-- How many values a 32-bit counter takes: `2 ^ 32`. -/
def uint32Size : ℕ := 4294967296

/-- `remove_char`: the data without its occurrences of `c`. -/
def removeChar (data : Bytes) (c : UInt8) : Bytes := data.filter (· ≠ c)

@[simp] theorem removeChar_append (s t : Bytes) (c : UInt8) :
    removeChar (s ++ t) c = removeChar s c ++ removeChar t c := List.filter_append ..

theorem removeChar_eq_self {s : Bytes} {c : UInt8} (h : c ∉ s) : removeChar s c = s := by
  refine List.filter_eq_self.2 fun d hd => decide_eq_true ?_
  rintro rfl
  exact h hd

/-! ## Hexadecimal texts -/

/-- A character that is no digit counts as a zero. -/
def charToInt (input : UInt8) : ℕ :=
  if 48 ≤ input ∧ input ≤ 57 then input.toNat - 48
  else if 65 ≤ input ∧ input ≤ 70 then input.toNat - 65 + 10
  else if 97 ≤ input ∧ input ≤ 102 then input.toNat - 97 + 10
  else 0

/-- The loop of `hexstring_to_bytes`, which a NUL ends. -/
def hexPairs : Bytes → Bytes
  | a :: b :: src =>
    if a ≠ 0 ∧ b ≠ 0 then (charToInt a * 16 + charToInt b).toUInt8 :: hexPairs src else []
  | _ => []

/-- `hexstring_to_bytes`: a block of half the length, zero where the loop did not get. -/
def hexstringToBytes (src : Bytes) : Option Bytes :=
  if src.length % 2 ≠ 0 then none
  else some (hexPairs src ++ List.replicate (src.length / 2 - (hexPairs src).length) 0)

/-- `_hextable`. -/
def hextable : Bytes := ascii "0123456789abcdef"

/-- The two digits of a byte. -/
def hexByte (b : UInt8) : Bytes :=
  [hextable.getD (b.toNat / 16) 0, hextable.getD (b.toNat % 16) 0]

def hexstring (src : Bytes) : Bytes := src.flatMap hexByte

theorem length_hexstring (src : Bytes) : (hexstring src).length = 2 * src.length := by
  simp [hexstring, hexByte, List.length_flatMap, Nat.mul_comm]

/-- A digit is one of the characters `0`–`9` and `a`–`f`. -/
theorem mem_hexstring {src : Bytes} {c : UInt8} (h : c ∈ hexstring src) : c ∈ hextable := by
  obtain ⟨b, -, hc⟩ := List.mem_flatMap.1 h
  have hall : ∀ d ∈ hexByte b, d ∈ hextable :=
    forall_byte (p := fun b => ∀ d ∈ hexByte b, d ∈ hextable) (by decide +kernel) b
  exact hall c hc

theorem hexPairs_hexByte (b : UInt8) (src : Bytes) :
    hexPairs (hexByte b ++ src) = b :: hexPairs src := by
  have hdigits : ∃ x y, hexByte b = [x, y] ∧ x ≠ 0 ∧ y ≠ 0 ∧
      (charToInt x * 16 + charToInt y).toUInt8 = b :=
    ⟨_, _, rfl, forall_byte (p := fun b => (hexByte b).getD 0 0 ≠ 0 ∧ (hexByte b).getD 1 0 ≠ 0 ∧
      (charToInt ((hexByte b).getD 0 0) * 16 + charToInt ((hexByte b).getD 1 0)).toUInt8 = b)
        (by decide +kernel) b⟩
  obtain ⟨x, y, hb, hx, hy, hvalue⟩ := hdigits
  rw [hb, List.cons_append, List.cons_append, List.nil_append, hexPairs, if_pos ⟨hx, hy⟩, hvalue]

theorem hexPairs_hexstring (src : Bytes) : hexPairs (hexstring src) = src := by
  induction src with
  | nil => rfl
  | cons b src ih =>
    rw [hexstring, List.flatMap_cons, hexPairs_hexByte, ← hexstring, ih]

/-- **Reading back what was spelled.** -/
theorem hexstringToBytes_hexstring (src : Bytes) : hexstringToBytes (hexstring src) = some src := by
  simp [hexstringToBytes, hexPairs_hexstring, length_hexstring]

theorem length_hexPairs_le (src : Bytes) : (hexPairs src).length ≤ src.length / 2 := by
  induction src using hexPairs.induct with
  | case1 a b src h ih => simp only [hexPairs, if_pos h, List.length_cons]; omega
  | case2 a b src h => simp [hexPairs, if_neg h]
  | case3 src h => unfold hexPairs; split <;> simp_all

/-- The block is NULL for a text of odd length, and has half the length of any other. -/
theorem length_hexstringToBytes {src bytes : Bytes} (h : hexstringToBytes src = some bytes) :
    src.length % 2 = 0 ∧ bytes.length = src.length / 2 := by
  rw [hexstringToBytes] at h
  split_ifs at h with hodd
  have := length_hexPairs_le src
  refine ⟨by omega, ?_⟩
  rw [← Option.some.inj h, List.length_append, List.length_replicate]
  omega

/-! ## Keys -/

/-- What `key_from_sgx_ec256` and the handler call of OpenSSL, over the type of its numbers and
that of its keys.  A pointer that may be NULL is an option. -/
structure Openssl (BigNum Key : Type) where
  bnLebin2bn : Bytes → Option BigNum
  /-- `EC_KEY_new_by_curve_name(NID_X9_62_prime256v1)`. -/
  ecKeyNew : Option Key
  /-- What the call returns, and the key as it leaves it. -/
  ecKeySetPublicKeyAffineCoordinates : Key → BigNum → BigNum → ℤ × Key
  ecdsaVerify : Bytes → Bytes → Option Key → ℤ

/-- The public key `gx ‖ gy`, or NULL. -/
def keyFromSgxEc256 {BigNum Key : Type} (openssl : Openssl BigNum Key) (k : Bytes) :
    Option Key := do
  let gx ← openssl.bnLebin2bn (k.take 32)
  let gy ← openssl.bnLebin2bn ((k.drop 32).take 32)
  let key ← openssl.ecKeyNew
  let set := openssl.ecKeySetPublicKeyAffineCoordinates key gx gy
  if set.1 = 0 then none else some set.2

end Dcap
