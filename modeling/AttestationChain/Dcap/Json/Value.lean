import AttestationChain.Dcap.Utils

/-!
# Dcap/Json/Value — the documents of `json::JSON`

A document holds its members in the order of their keys.  The two ordered kinds hold them under
numbered keys, with a map from each key to its numbered one.  `operator[]` yields a place, which is
read or written; on anything but an object it starts an empty one.

Strings are bytes, and `ToString` escapes them.
-/

namespace Dcap

/-- `json::JSON`, over the type of its doubles.  The keys of an ordered object lead to the keys its
values are held under. -/
inductive JSON (Double : Type)
  | null
  | object (map : List (Bytes × JSON Double))
  | fioObject (keys : List (Bytes × Bytes)) (vals : List (Bytes × JSON Double))
  | flatObject (keys : List (Bytes × Bytes)) (vals : List (Bytes × JSON Double))
  | pair (first : Bytes) (second : JSON Double)
  | array (list : List (JSON Double))
  | hash (hashList : Bytes)
  | buffer (bufferList : Bytes)
  | string (s : Bytes)
  | floating (d : Double)
  | integral (i : ℤ)
  | boolean (b : Bool)

/-- What the library of doubles does for a document: `std::to_string`, `std::stod` (none where it
throws), the conversion of a `long`, `std::pow(10, ·)` and the product. -/
structure Doubles (Double : Type) where
  toString : Double → Bytes
  stod : Bytes → Option Double
  ofLong : ℤ → Double
  pow10 : ℤ → Double
  mul : Double → Double → Double

/-- A library whose doubles are all one. -/
def plainDoubles : Doubles Unit :=
  ⟨fun _ => ascii "0.000000", fun _ => some (), fun _ => (), fun _ => (), fun _ _ => ()⟩

/-! ## Texts -/

/-- What `json_escape` writes for a character. -/
def escapeByte (c : UInt8) : Bytes :=
  if c = 34 then [92, 34]
  else if c = 92 then [92, 92]
  else if c = 8 then [92, 98]
  else if c = 12 then [92, 102]
  else if c = 10 then [92, 110]
  else if c = 13 then [92, 114]
  else if c = 9 then [92, 116]
  else [c]

/-- The text `json_escape` writes. -/
def escaped (str : Bytes) : Bytes := str.flatMap escapeByte

/-- `json_escape`: its counter is unsigned, so it never gets to the end of a string of 4 GiB. -/
def jsonEscape (str : Bytes) : Except Fault Bytes :=
  if str.length < uint32Size then .ok (escaped str) else .error .diverges

theorem escaped_of_jsonEscape {str k : Bytes} (h : jsonEscape str = .ok k) : escaped str = k := by
  rw [jsonEscape] at h
  split at h
  · exact Except.ok.inj h
  · cases h

def isDigit (c : UInt8) : Bool := 48 ≤ c && c ≤ 57

def isNumber (s : Bytes) : Bool := s ≠ [] && s.all isDigit

/-- `std::to_string`, of a `long`. -/
def toDecimal (i : ℤ) : Bytes := ascii (toString i)

/-- `FIO_SEPARATER`. -/
def fioSeparater : UInt8 := 45

@[simp] theorem escaped_cons (c : UInt8) (s : Bytes) :
    escaped (c :: s) = escapeByte c ++ escaped s := rfl

theorem escapeByte_ne_nil (c : UInt8) : escapeByte c ≠ [] := by
  unfold escapeByte
  split_ifs <;> simp

theorem length_le_length_escaped (s : Bytes) : s.length ≤ (escaped s).length := by
  induction s with
  | nil => simp
  | cons c s ih =>
    have := List.length_pos_iff.2 (escapeByte_ne_nil c)
    simp only [escaped_cons, List.length_cons, List.length_append]
    omega

/-- A character that stands for itself in a document and in an answer. -/
def PlainByte (c : UInt8) : Prop := 32 ≤ c ∧ c < 128 ∧ c ≠ 34 ∧ c ≠ 92

instance (c : UInt8) : Decidable (PlainByte c) := inferInstanceAs (Decidable (_ ∧ _))

/-- A byte that is written as it is. -/
def Unescaped (b : UInt8) : Prop := 32 ≤ b ∧ b ≠ 34 ∧ b ≠ 92

theorem escapeByte_unescaped {b : UInt8} (h : Unescaped b) : escapeByte b = [b] := by
  obtain ⟨hle, hquote, hescape⟩ := h
  have hcontrol : ∀ d : UInt8, d < 32 → b ≠ d := by
    rintro d hd rfl
    exact absurd hle (UInt8.not_le.2 hd)
  rw [escapeByte, if_neg hquote, if_neg hescape, if_neg (hcontrol 8 (by decide)),
    if_neg (hcontrol 12 (by decide)), if_neg (hcontrol 10 (by decide)),
    if_neg (hcontrol 13 (by decide)), if_neg (hcontrol 9 (by decide))]

theorem escaped_append (s t : Bytes) : escaped (s ++ t) = escaped s ++ escaped t :=
  List.flatMap_append ..

theorem escaped_unescaped {s : Bytes} (h : ∀ b ∈ s, Unescaped b) : escaped s = s := by
  induction s with
  | nil => rfl
  | cons b s ih =>
    rw [escaped_cons, escapeByte_unescaped (h b (by simp)), ih fun d hd => h d (by simp [hd]),
      List.singleton_append]

theorem PlainByte.unescaped {c : UInt8} (h : PlainByte c) : Unescaped c := ⟨h.1, h.2.2⟩

theorem escaped_plain {s : Bytes} (h : ∀ c ∈ s, PlainByte c) : escaped s = s :=
  escaped_unescaped fun c hc => (h c hc).unescaped

theorem plain_hexstring (src : Bytes) : ∀ c ∈ hexstring src, PlainByte c := fun c hc =>
  have hplain : ∀ d ∈ hextable, PlainByte d := forall_mem_of_all (by decide)
  hplain c (mem_hexstring hc)

/-! ## Maps -/

section Map

variable {V : Type}

/-- `map.find(key)`. -/
def mapFind (map : List (Bytes × V)) (key : Bytes) : Option V :=
  (map.find? fun kv => kv.1 = key).map Prod.snd

/-- `map[key] = v`, in the order of the keys. -/
def mapSet (key : Bytes) (v : V) : List (Bytes × V) → List (Bytes × V)
  | [] => [(key, v)]
  | kv :: map =>
    if key = kv.1 then (key, v) :: map
    else if key < kv.1 then (key, v) :: kv :: map
    else kv :: mapSet key v map

theorem mapFind_cons (kv : Bytes × V) (map : List (Bytes × V)) (key : Bytes) :
    mapFind (kv :: map) key = if kv.1 = key then some kv.2 else mapFind map key := by
  rw [mapFind, List.find?_cons]
  by_cases h : kv.1 = key
  · rw [if_pos h, decide_eq_true h]
    rfl
  · rw [if_neg h, decide_eq_false h]
    rfl

/-- **What a map has after a key was set.** -/
theorem mapFind_mapSet (key : Bytes) (v : V) (map : List (Bytes × V)) (key' : Bytes) :
    mapFind (mapSet key v map) key' = if key = key' then some v else mapFind map key' := by
  induction map with
  | nil => exact mapFind_cons (key, v) [] key'
  | cons kv map ih =>
    rw [mapSet]
    by_cases heq : key = kv.1
    · rw [if_pos heq, mapFind_cons, mapFind_cons, ← heq]
      by_cases h : key = key'
      · rw [if_pos h, if_pos h]
      · rw [if_neg h, if_neg h, if_neg h]
    by_cases hlt : key < kv.1
    · rw [if_neg heq, if_pos hlt, mapFind_cons]
    · rw [if_neg heq, if_neg hlt, mapFind_cons, mapFind_cons, ih]
      by_cases h : key = key'
      · rw [if_pos h, if_pos h, if_neg fun h' => heq (h.trans h'.symm)]
      · rw [if_neg h, if_neg h]

/-- Keys that go up. -/
def Sorted (map : List (Bytes × V)) : Prop := map.Pairwise fun kv kv' => kv.1 < kv'.1

instance transLt : Trans (fun a b : UInt8 => a < b) (fun a b => a < b) fun a b => a < b :=
  ⟨UInt8.lt_trans⟩

theorem mem_mapSet {key : Bytes} {v : V} {map : List (Bytes × V)} {kv : Bytes × V}
    (h : kv ∈ mapSet key v map) : kv = (key, v) ∨ kv ∈ map := by
  induction map with
  | nil => exact .inl (List.mem_singleton.1 h)
  | cons kv' map ih =>
    rw [mapSet] at h
    split_ifs at h
    · exact (List.mem_cons.1 h).imp_right (List.mem_cons_of_mem _)
    · exact List.mem_cons.1 h
    · rcases List.mem_cons.1 h with rfl | h
      · exact .inr List.mem_cons_self
      · exact (ih h).imp_right (List.mem_cons_of_mem _)

/-- Setting a key keeps the keys in order. -/
theorem sorted_mapSet {map : List (Bytes × V)} (h : Sorted map) (key : Bytes) (v : V) :
    Sorted (mapSet key v map) := by
  induction map with
  | nil => exact List.pairwise_singleton ..
  | cons kv map ih =>
    obtain ⟨hkv, hmap⟩ := List.pairwise_cons.1 h
    rw [mapSet]
    split_ifs with heq hlt
    · exact List.pairwise_cons.2 ⟨fun kv' hkv' => heq ▸ hkv kv' hkv', hmap⟩
    · refine List.pairwise_cons.2 ⟨fun kv' hkv' => ?_, h⟩
      rcases List.mem_cons.1 hkv' with rfl | hkv'
      · exact hlt
      · exact List.lt_trans hlt (hkv kv' hkv')
    · have hgt : kv.1 < key := by
        rcases Std.Trichotomous.rel_or_eq_or_rel_swap (r := fun a b : Bytes => a < b) (a := key)
          (b := kv.1) with h | h | h
        · exact (hlt h).elim
        · exact (heq h).elim
        · exact h
      refine List.pairwise_cons.2 ⟨fun kv' hkv' => ?_, ih hmap⟩
      rcases mem_mapSet hkv' with rfl | hkv'
      · exact hgt
      · exact hkv kv' hkv'

/-- A key behind all the others goes to the end. -/
theorem mapSet_of_lt {key : Bytes} {map : List (Bytes × V)} (h : ∀ kv ∈ map, kv.1 < key) (v : V) :
    mapSet key v map = map ++ [(key, v)] := by
  induction map with
  | nil => rfl
  | cons kv map ih =>
    have hlt := h kv List.mem_cons_self
    have hne : key ≠ kv.1 := fun heq => List.lt_irrefl key (heq ▸ hlt)
    rw [mapSet, if_neg hne, if_neg fun h => List.lt_irrefl key (List.lt_trans h hlt),
      ih fun kv' hkv' => h kv' (List.mem_cons_of_mem _ hkv'), List.cons_append]

end Map

/-! ## Places -/

namespace JSON

variable {Double : Type}

/-- The tag that follows a tag: its last digit counts up, and a nine has a zero put behind it. -/
def nextTag (tag : Bytes) : Bytes :=
  match tag.getLast? with
  | none => tag
  | some d => if 57 ≤ d then tag ++ [48] else tag.dropLast ++ [d + 1]

/-- The tag of a numbered key: what stands before its separator, if that is a number. -/
def numberTag (key : Bytes) : Option Bytes :=
  if fioSeparater ∈ key ∧ isNumber (key.takeWhile (· ≠ fioSeparater)) then
    some (key.takeWhile (· ≠ fioSeparater))
  else none

/-- The numbered key for a new one: it follows the last of those there. -/
def numberedKey (vals : List (Bytes × JSON Double)) (key : Bytes) : Bytes :=
  match vals.reverse.findSome? fun kv => numberTag kv.1 with
  | some tag => nextTag tag ++ fioSeparater :: key
  | none => 48 :: fioSeparater :: key

/-- The key a value is held under, and the keys with that one noted. -/
def fioKey (keys : List (Bytes × Bytes)) (vals : List (Bytes × JSON Double)) (key : Bytes) :
    Except Fault (Bytes × List (Bytes × Bytes)) :=
  match mapFind keys key with
  | some rkey => do
    -- It is read back by `ToString`, which escapes it.
    let rkey ← jsonEscape rkey
    .ok (rkey, keys)
  | none => .ok (numberedKey vals key, mapSet key (numberedKey vals key) keys)

/-- `operator[]`: the value at a place, null where there was none, and the document with another
value put there. -/
def place (j : JSON Double) (key : Bytes) :
    Except Fault (JSON Double × (JSON Double → JSON Double)) :=
  match j with
  | .object map => .ok ((mapFind map key).getD .null, fun v => .object (mapSet key v map))
  | .fioObject keys vals => do
    let (rkey, keys) ← fioKey keys vals key
    .ok ((mapFind vals rkey).getD .null, fun v => .fioObject keys (mapSet rkey v vals))
  | .flatObject keys vals => do
    let (rkey, keys) ← fioKey keys vals key
    .ok ((mapFind vals rkey).getD .null, fun v => .flatObject keys (mapSet rkey v vals))
  | _ => .ok (.null, fun v => .object [(key, v)])

/-- The value at a place, and the document, which now has that place. -/
def index (j : JSON Double) (key : Bytes) : Except Fault (JSON Double × JSON Double) := do
  let (v, put) ← j.place key
  .ok (v, put v)

/-- `j[key] = v`. -/
def set (j : JSON Double) (key : Bytes) (v : JSON Double) : Except Fault (JSON Double) := do
  let (_, put) ← j.place key
  .ok (put v)

/-- `ToString`, which escapes a string. -/
def toString : JSON Double → Except Fault Bytes
  | .string s => jsonEscape s
  | .hash hashList => .ok (hexstring hashList)
  | .buffer bufferList => .ok (hexstring bufferList)
  | .integral i => .ok (toDecimal i)
  | _ => .ok []

/-- `obj[key.ToString()] = v`. -/
def putMember (key obj v : JSON Double) : Except Fault (JSON Double) := do
  let name ← key.toString
  obj.set name v

/-- `hasKey`. -/
def hasKey (j : JSON Double) (key : Bytes) : Bool :=
  match j with
  | .object map => (mapFind map key).isSome
  | .fioObject keys _ | .flatObject keys _ => (mapFind keys key).isSome
  | _ => false

/-- `ToInt`. -/
def toInt : JSON Double → ℤ
  | .integral i => i
  | _ => 0

@[simp] theorem index_object (map : List (Bytes × JSON Double)) (key : Bytes) :
    index (.object map) key = .ok ((mapFind map key).getD .null,
      .object (mapSet key ((mapFind map key).getD .null) map)) := rfl

@[simp] theorem set_object (map : List (Bytes × JSON Double)) (key : Bytes) (v : JSON Double) :
    set (.object map) key v = .ok (.object (mapSet key v map)) := rfl

/-! ## Ordered objects -/

/-- An ordered object of either kind. -/
def ordered (flat : Bool) (keys : List (Bytes × Bytes)) (vals : List (Bytes × JSON Double)) :
    JSON Double :=
  if flat then .flatObject keys vals else .fioObject keys vals

section Ordered

variable {flat : Bool} {keys : List (Bytes × Bytes)} {vals : List (Bytes × JSON Double)}

theorem ordered_inj {flat' : Bool} {keys' : List (Bytes × Bytes)}
    {vals' : List (Bytes × JSON Double)} (h : ordered flat keys vals = ordered flat' keys' vals') :
    keys = keys' ∧ vals = vals' := by
  cases flat <;> cases flat' <;> cases h <;> exact ⟨rfl, rfl⟩

theorem place_ordered (key : Bytes) : (ordered flat keys vals).place key =
    fioKey keys vals key >>= fun r => .ok ((mapFind vals r.1).getD .null,
      fun v => ordered flat r.2 (mapSet r.1 v vals)) := by
  cases flat <;> rfl

/-- **What is set in an object stays one**: in an ordered one under the key that is noted. -/
theorem set_cases {obj obj' v : JSON Double} {key : Bytes} (h : obj.set key v = .ok obj') :
    (∃ map, obj = .object map ∧ obj' = .object (mapSet key v map)) ∨
    (∃ flat keys vals r, obj = ordered flat keys vals ∧ fioKey keys vals key = .ok r ∧
      obj' = ordered flat r.2 (mapSet r.1 v vals)) ∨
    obj' = .object [(key, v)] := by
  have hordered : ∀ flat keys vals, (ordered flat keys vals).set key v = .ok obj' →
      ∃ r, fioKey keys vals key = .ok r ∧ obj' = ordered flat r.2 (mapSet r.1 v vals) := by
    intro flat keys vals h
    obtain ⟨_, hplace, hput⟩ := bind_eq_ok.1 h
    rw [place_ordered] at hplace
    obtain ⟨r, hr, hplace⟩ := bind_eq_ok.1 hplace
    cases hplace
    exact ⟨r, hr, (Except.ok.inj hput).symm⟩
  cases obj with
  | object map => exact .inl ⟨map, rfl, (Except.ok.inj h).symm⟩
  | fioObject keys vals =>
    obtain ⟨r, hr, hobj'⟩ := hordered false keys vals h
    exact .inr (.inl ⟨false, keys, vals, r, rfl, hr, hobj'⟩)
  | flatObject keys vals =>
    obtain ⟨r, hr, hobj'⟩ := hordered true keys vals h
    exact .inr (.inl ⟨true, keys, vals, r, rfl, hr, hobj'⟩)
  | _ => exact .inr (.inr (Except.ok.inj h).symm)

end Ordered

end JSON

end Dcap
