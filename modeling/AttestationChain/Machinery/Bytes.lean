import Mathlib.Data.List.Basic
import Mathlib.Data.UInt
import Mathlib.Tactic.Common

/-!
# Machinery/Bytes — byte strings, and the texts among them

Both sides of the wire handle byte strings: `std::string` is one, and a Rust `&str` is one that is
UTF-8.  `fromUtf8` reads the characters of a byte string, and `fromUtf8_eq_some` says what it
means: the bytes are the encodings of the characters, one after the other.
-/

/-- A byte string. -/
abbrev Bytes := List UInt8

/-- The bytes of an ASCII text. -/
def ascii (s : String) : Bytes := s.toList.map fun c => c.toNat.toUInt8

/-- The UTF-8 encoding of a list of characters. -/
def utf8 (cs : List Char) : Bytes := cs.flatMap String.utf8EncodeChar

/-- `str::from_utf8`: the characters of a byte string, if it is UTF-8. -/
def fromUtf8 (b : Bytes) : Option (List Char) := (b.toByteArray.utf8Decode?).map Array.toList

theorem toByteArray_utf8 (cs : List Char) : (utf8 cs).toByteArray = cs.utf8Encode := by
  rw [utf8, List.utf8Encode]

/-- **A byte string is the text whose encoding it is.** -/
theorem fromUtf8_eq_some {b : Bytes} {cs : List Char} : fromUtf8 b = some cs ↔ b = utf8 cs := by
  constructor
  · intro h
    obtain ⟨a, ha, rfl⟩ := Option.map_eq_some_iff.1 h
    have hget : a.toList.utf8Encode = b.toByteArray := by
      have := ByteArray.utf8Encode_get_utf8Decode? (b := b.toByteArray) (h := by simp [ha])
      simpa [ha] using this
    rw [← toByteArray_utf8] at hget
    exact (List.toByteArray_inj.1 hget).symm
  · rintro rfl
    rw [fromUtf8, toByteArray_utf8, List.utf8Decode?_utf8Encode, Option.map_some]

/-- A text is known by its encoding. -/
theorem utf8_injective {s t : List Char} (h : utf8 s = utf8 t) : s = t := by
  have hs : fromUtf8 (utf8 s) = some s := fromUtf8_eq_some.2 rfl
  rw [h, fromUtf8_eq_some.2 rfl] at hs
  exact (Option.some.inj hs).symm

/-- A property of bytes, checked one by one. -/
theorem forall_byte {p : UInt8 → Prop} (h : ∀ n : Fin 256, p (UInt8.ofNat n)) (b : UInt8) :
    p b := by
  have hb := h ⟨b.toNat, b.toNat_lt⟩
  rwa [UInt8.ofNat_toNat] at hb

/-- A property of the bytes of a string, checked one by one. -/
theorem forall_mem_of_all {p : UInt8 → Prop} [DecidablePred p] {s : Bytes}
    (h : (s.all fun c => decide (p c)) = true) : ∀ c ∈ s, p c := fun c hc =>
  of_decide_eq_true (List.all_eq_true.1 h c hc)

/-! ## ASCII -/

theorem utf8_cons (c : Char) (cs : List Char) :
    utf8 (c :: cs) = String.utf8EncodeChar c ++ utf8 cs := rfl

theorem utf8_append (cs ds : List Char) : utf8 (cs ++ ds) = utf8 cs ++ utf8 ds :=
  List.flatMap_append ..

theorem utf8EncodeChar_ascii {c : Char} (h : c.toNat < 128) :
    String.utf8EncodeChar c = [c.toNat.toUInt8] := by
  refine String.utf8EncodeChar_eq_singleton (Char.utf8Size_eq_one_iff.2 ?_)
  rw [UInt32.le_iff_toNat_le]
  exact Nat.lt_succ_iff.1 h

theorem one_lt_utf8Size {c : Char} (h : 128 ≤ c.toNat) : 1 < c.utf8Size := by
  refine lt_of_le_of_ne c.utf8Size_pos fun h1 => ?_
  have hle : c.toNat ≤ 127 := UInt32.le_iff_toNat_le.1 (Char.utf8Size_eq_one_iff.1 h1.symm)
  omega

/-- A byte of a character that has more than one has its high bit set. -/
theorem le_of_mem_utf8EncodeChar {c : Char} (h : 128 ≤ c.toNat) {b : UInt8}
    (hb : b ∈ String.utf8EncodeChar c) : 128 ≤ b := by
  have hhigh : ∀ x : UInt8, 128 ≤ x ||| 0x80 ∧ 128 ≤ x ||| 0xc0 ∧ 128 ≤ x ||| 0xe0 ∧
      128 ≤ x ||| 0xf0 := forall_byte (by decide +kernel)
  have hsize := one_lt_utf8Size h
  obtain h' | h' | h' | h' := Char.utf8Size_eq c
  · omega
  · rw [String.utf8EncodeChar_eq_cons_cons h'] at hb
    obtain rfl | rfl : b = _ ∨ b = _ := by simpa using hb
    · exact (hhigh _).2.1
    · exact (hhigh _).1
  · rw [String.utf8EncodeChar_eq_cons_cons_cons h'] at hb
    obtain rfl | rfl | rfl : b = _ ∨ b = _ ∨ b = _ := by simpa using hb
    · exact (hhigh _).2.2.1
    · exact (hhigh _).1
    · exact (hhigh _).1
  · rw [String.utf8EncodeChar_eq_cons_cons_cons_cons h'] at hb
    obtain rfl | rfl | rfl | rfl : b = _ ∨ b = _ ∨ b = _ ∨ b = _ := by simpa using hb
    · exact (hhigh _).2.2.2
    · exact (hhigh _).1
    · exact (hhigh _).1
    · exact (hhigh _).1

/-- An ASCII byte is in the encoding of its own character alone. -/
theorem toNat_of_mem_utf8EncodeChar {c : Char} {b : UInt8} (hb : b ∈ String.utf8EncodeChar c)
    (hascii : b < 128) : c.toNat = b.toNat := by
  have hlt : c.toNat < 128 := by
    by_contra hge
    exact absurd (le_of_mem_utf8EncodeChar (not_lt.1 hge) hb) (UInt8.not_le.2 hascii)
  rw [utf8EncodeChar_ascii hlt, List.mem_singleton] at hb
  rw [hb, UInt8.toNat_ofNat', Nat.mod_eq_of_lt (by omega)]

/-- A text is at most as long as its encoding… -/
theorem length_le_length_utf8 (cs : List Char) : cs.length ≤ (utf8 cs).length := by
  induction cs with
  | nil => simp
  | cons c cs ih =>
    have := c.utf8Size_pos
    rw [utf8_cons, List.length_append, String.length_utf8EncodeChar, List.length_cons]
    omega

/-- …and as long only if it is ASCII. -/
theorem ascii_of_length_utf8 {cs : List Char} (h : (utf8 cs).length ≤ cs.length) :
    ∀ c ∈ cs, c.toNat < 128 := by
  induction cs with
  | nil => simp
  | cons c cs ih =>
    have hle := length_le_length_utf8 cs
    rw [utf8_cons, List.length_append, String.length_utf8EncodeChar, List.length_cons] at h
    refine List.forall_mem_cons.2 ⟨?_, ih (by have := c.utf8Size_pos; omega)⟩
    by_contra hge
    have := one_lt_utf8Size (not_lt.1 hge)
    omega

/-- The characters that bytes are, each by itself. -/
def chars (b : Bytes) : List Char := b.map fun c => Char.ofNat c.toNat

theorem toNat_ofNat_toNat : ∀ b : UInt8, (Char.ofNat b.toNat).toNat = b.toNat :=
  forall_byte (by decide +kernel)

theorem utf8_chars {b : Bytes} (h : ∀ c ∈ b, c < 128) : utf8 (chars b) = b := by
  induction b with
  | nil => rfl
  | cons c b ih =>
    have hc : (Char.ofNat c.toNat).toNat < 128 := by
      rw [toNat_ofNat_toNat]
      exact UInt8.lt_iff_toNat_lt.1 (h c (by simp))
    rw [chars, List.map_cons, utf8_cons, utf8EncodeChar_ascii hc, toNat_ofNat_toNat, ← chars,
      ih fun d hd => h d (by simp [hd])]
    simp

/-- **A text whose encoding starts with ASCII** starts with those characters. -/
theorem eq_chars_append {p rest : Bytes} (hp : ∀ c ∈ p, c < 128) :
    ∀ {cs : List Char}, utf8 cs = p ++ rest → ∃ ds, cs = chars p ++ ds ∧ utf8 ds = rest := by
  induction p with
  | nil => exact fun {cs} h => ⟨cs, rfl, h⟩
  | cons b p ih =>
    intro cs h
    cases cs with
    | nil => cases h
    | cons c cs =>
      rw [utf8_cons] at h
      have hmem : b ∈ String.utf8EncodeChar c := by
        have hne : String.utf8EncodeChar c ≠ [] := by
          rw [← List.length_pos_iff, String.length_utf8EncodeChar]
          exact c.utf8Size_pos
        obtain ⟨b', bs, hbs⟩ := List.exists_cons_of_ne_nil hne
        rw [hbs] at h ⊢
        rw [(List.cons.inj h).1]
        exact List.mem_cons_self
      have hb := hp b (by simp)
      have hc := toNat_of_mem_utf8EncodeChar hmem hb
      have hchar : c = Char.ofNat b.toNat := Char.toNat_inj.1 (hc.trans (toNat_ofNat_toNat b).symm)
      rw [utf8EncodeChar_ascii (hc ▸ UInt8.lt_iff_toNat_lt.1 hb)] at h
      obtain ⟨ds, rfl, hds⟩ := ih (fun d hd => hp d (by simp [hd])) (List.cons.inj h).2
      exact ⟨ds, by rw [hchar]; rfl, hds⟩
