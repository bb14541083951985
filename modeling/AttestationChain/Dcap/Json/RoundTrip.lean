import AttestationChain.Dcap.Json.Parse

/-!
# Dcap/Json/RoundTrip — reading what was written

`json_escape` is undone by the scanner of `parse_string` (`scanString_escaped`), so an object of
strings is read back from the text that writes it (`load_written`).
-/

namespace Dcap.JSON

variable {Double : Type}

/-! ## Strings -/

theorem prepend_ok (s val mem : Bytes) :
    prepend s (.ok (some val, mem)) = .ok (some (s ++ val), mem) :=
  rfl

theorem scanString_quote (mem : Bytes) : scanString (34 :: mem) = .ok (some [], mem) := by
  cases mem with
  | nil => rfl
  | cons e mem => rw [scanString.eq_def]; exact if_pos rfl

/-- A character that neither ends nor escapes. -/
theorem scanString_cons {c : UInt8} (hquote : c ≠ 34) (hescape : c ≠ 92) (mem : Bytes) :
    scanString (c :: mem) = prepend [c] (scanString mem) := by
  cases mem with
  | nil => exact if_neg hquote
  | cons e mem => rw [scanString.eq_def]; exact (if_neg hquote).trans (if_pos hescape)

theorem scanString_escape {e : UInt8} (he : e ≠ 117) (mem : Bytes) :
    scanString (92 :: e :: mem) = prepend [unescape e] (scanString mem) := by
  rw [scanString.eq_def]
  exact (if_neg (by decide)).trans ((if_neg (by decide)).trans (if_pos he))

theorem scanString_unicode (h₁ h₂ h₃ h₄ : UInt8) (mem : Bytes) :
    scanString (92 :: 117 :: h₁ :: h₂ :: h₃ :: h₄ :: mem) =
      if [h₁, h₂, h₃, h₄].all isHexDigit then
        prepend [92, 117, h₁, h₂, h₃, h₄] (scanString mem)
      else .ok (none, 117 :: h₁ :: h₂ :: h₃ :: h₄ :: mem) := by
  rw [scanString.eq_def]
  exact (if_neg (by decide)).trans ((if_neg (by decide)).trans (if_neg (by decide)))

/-- Where one of the next four is no digit, the string is given up. -/
theorem scanString_unicode_none {mem : Bytes} (h : (mem.take 4).all isHexDigit = false) :
    scanString (92 :: 117 :: mem) = .ok (none, 117 :: mem) := by
  rw [scanString.eq_def]
  refine (if_neg (by decide)).trans ((if_neg (by decide)).trans ((if_neg (by decide)).trans ?_))
  match mem, h with
  | h₁ :: h₂ :: h₃ :: h₄ :: mem, h => exact if_neg (by simpa using h)
  | [], h => cases h
  | [_], h => exact if_neg (by simpa using h)
  | [_, _], h => exact if_neg (by simpa using h)
  | [_, _, _], h => exact if_neg (by simpa using h)

/-- **A character that was escaped is read back.** -/
theorem scanString_escapeByte (c : UInt8) (mem : Bytes) :
    scanString (escapeByte c ++ mem) = prepend [c] (scanString mem) := by
  unfold escapeByte
  split_ifs with h h h h h h h
  all_goals first
    | subst h
      exact scanString_escape (by decide) mem
    | exact scanString_cons ‹_› ‹_› mem

/-- **A string that was escaped is read back.** -/
theorem scanString_escaped (s mem : Bytes) :
    scanString (escaped s ++ 34 :: mem) = .ok (some s, mem) := by
  induction s with
  | nil => exact scanString_quote mem
  | cons c s ih => rw [escaped_cons, List.append_assoc, scanString_escapeByte, ih, prepend_ok]; rfl

/-- A string that stands for itself. -/
def Untagged (s : Bytes) : Prop := ¬ hashTag <+: s ∧ ¬ buffTag <+: s

instance (s : Bytes) : Decidable (Untagged s) := inferInstanceAs (Decidable (_ ∧ _))

theorem stringValue_untagged {s : Bytes} (h : Untagged s) :
    (stringValue s : Except Fault (JSON Double)) = .ok (.string s) := by
  rw [stringValue, if_neg h.1, if_neg h.2]

/-- A string as it is written. -/
def quoted (s : Bytes) : Bytes := 34 :: (escaped s ++ [34])

theorem parseNext_quoted (doubles : Doubles Double) (overload : Overload) (fuel : ℕ)
    (status : CrustStatus) {s : Bytes} (h : Untagged s) (mem : Bytes) :
    parseNext doubles overload (fuel + 1) status (quoted s ++ mem) =
      .ok (.string s, status, mem) := by
  have hscan : (parseString status (escaped s ++ 34 :: mem) : Except Fault (Parsed Double)) =
      .ok (.string s, status, mem) := by
    rw [parseString, scanString_escaped]
    change (stringValue s >>= fun ans => _) = _
    rw [stringValue_untagged h]
    rfl
  rw [quoted, List.cons_append, List.append_assoc, List.singleton_append, parseNext]
  exact hscan

/-! ## Objects of strings -/

/-- The members of an object as they are written, through its closing brace. -/
def writtenMembers : List (Bytes × Bytes) → Bytes
  | [] => [125]
  | [kv] => quoted kv.1 ++ 58 :: (quoted kv.2 ++ [125])
  | kv :: kvs => quoted kv.1 ++ 58 :: (quoted kv.2 ++ 44 :: writtenMembers kvs)

/-- An object of strings as it is written. -/
def written (kvs : List (Bytes × Bytes)) : Bytes := 123 :: writtenMembers kvs

/-- The members an object of strings is read as: their keys are escaped. -/
def readMembers (map : List (Bytes × JSON Double)) (kvs : List (Bytes × Bytes)) :
    List (Bytes × JSON Double) :=
  kvs.foldl (fun map kv => mapSet (escaped kv.1) (.string kv.2) map) map

/-- Members that can be written: the keys are short enough to be escaped, and no string stands for
anything but itself. -/
def Writable (kvs : List (Bytes × Bytes)) : Prop :=
  ∀ kv ∈ kvs, kv.1.length < uint32Size ∧ Untagged kv.1 ∧ Untagged kv.2

/-- A key and its value, read in front of a comma. -/
theorem parseMembers_quoted_comma (doubles : Doubles Double) (overload : Overload) (fuel : ℕ)
    (status : CrustStatus) (map : List (Bytes × JSON Double)) {k v : Bytes}
    (hk : k.length < uint32Size) (hk' : Untagged k) (hv : Untagged v) (mem : Bytes) :
    parseMembers doubles overload (fuel + 2) status (.object map)
        (quoted k ++ 58 :: (quoted v ++ 44 :: mem)) =
      parseMembers doubles overload (fuel + 1) status
        (.object (mapSet (escaped k) (.string v) map)) mem := by
  have hcolon : consumeWs (58 :: (quoted v ++ 44 :: mem)) = .ok (58 :: (quoted v ++ 44 :: mem)) :=
    rfl
  have hquote : consumeWs (quoted v ++ 44 :: mem) = .ok (quoted v ++ 44 :: mem) := rfl
  have hcomma : consumeWs (44 :: mem) = .ok (44 :: mem) := rfl
  have hkey : (JSON.string k : JSON Double).toString = .ok (escaped k) := if_pos hk
  rw [parseMembers, parseNext_quoted doubles overload fuel status hk']
  simp only [bind, Except.bind, hcolon, hquote, parseNext_quoted doubles overload fuel status hv,
    hkey, set_object, hcomma]

/-- A key and its value, read in front of the closing brace. -/
theorem parseMembers_quoted_brace (doubles : Doubles Double) (overload : Overload) (fuel : ℕ)
    (status : CrustStatus) (map : List (Bytes × JSON Double)) {k v : Bytes}
    (hk : k.length < uint32Size) (hk' : Untagged k) (hv : Untagged v) (mem : Bytes) :
    parseMembers doubles overload (fuel + 2) status (.object map)
        (quoted k ++ 58 :: (quoted v ++ 125 :: mem)) =
      .ok (.object (mapSet (escaped k) (.string v) map), status, mem) := by
  have hcolon : consumeWs (58 :: (quoted v ++ 125 :: mem)) = .ok (58 :: (quoted v ++ 125 :: mem)) :=
    rfl
  have hquote : consumeWs (quoted v ++ 125 :: mem) = .ok (quoted v ++ 125 :: mem) := rfl
  have hbrace : consumeWs (125 :: mem) = .ok (125 :: mem) := rfl
  have hkey : (JSON.string k : JSON Double).toString = .ok (escaped k) := if_pos hk
  rw [parseMembers, parseNext_quoted doubles overload fuel status hk']
  simp only [bind, Except.bind, hcolon, hquote, parseNext_quoted doubles overload fuel status hv,
    hkey, set_object, hbrace]

/-- **The members of a written object are read back**, each over what was read before it. -/
theorem parseMembers_written (doubles : Doubles Double) (overload : Overload)
    (status : CrustStatus) (mem : Bytes) : ∀ (kvs : List (Bytes × Bytes)) (fuel : ℕ)
      (map : List (Bytes × JSON Double)), kvs ≠ [] → kvs.length < fuel → Writable kvs →
      parseMembers doubles overload fuel status (.object map) (writtenMembers kvs ++ mem) =
        .ok (.object (readMembers map kvs), status, mem)
  | [], _, _, hne, _, _ => absurd rfl hne
  | _, 0, _, _, hfuel, _ => absurd hfuel (by omega)
  | _ :: _, 1, _, _, hfuel, _ => absurd hfuel (by simp)
  | [kv], fuel + 2, map, _, _, hkvs => by
      obtain ⟨hk, hk', hv⟩ := hkvs kv (by simp)
      rw [writtenMembers, List.append_assoc, List.cons_append, List.append_assoc,
        List.singleton_append, parseMembers_quoted_brace doubles overload fuel status map hk hk' hv]
      rfl
  | kv :: kv' :: kvs, fuel + 2, map, _, hfuel, hkvs => by
      obtain ⟨hk, hk', hv⟩ := hkvs kv (by simp)
      have hrest := parseMembers_written doubles overload status mem (kv' :: kvs) (fuel + 1)
        (mapSet (escaped kv.1) (.string kv.2) map) (by simp) (by simpa using hfuel)
        fun kv hkv => hkvs kv (List.mem_cons_of_mem _ hkv)
      rw [writtenMembers, List.append_assoc, List.cons_append, List.append_assoc, List.cons_append,
        parseMembers_quoted_comma doubles overload fuel status map hk hk' hv]
      · exact hrest
      · simp

/-- No kind stands where no `f` does, if so much stands there as is looked at. -/
theorem emptyObject_cons {c : UInt8} (hc : c ≠ 102) {mem : Bytes} (hmem : 3 ≤ mem.length) :
    (emptyObject (c :: mem) : Except Fault (JSON Double × Bytes)) = .ok (.object [], c :: mem) := by
  have hkind : ∀ w, w.length ≤ 3 → memcmp (c :: mem) (102 :: w) = .ok false := by
    intro w hw
    have hne : ¬ 102 :: w <+: c :: mem := fun h => hc (List.cons_prefix_cons.1 h).1.symm
    rw [memcmp, if_neg (by simp only [List.length_cons]; omega), decide_eq_false hne]
  have hfio : memcmp (c :: mem) (ascii "fio") = .ok false := hkind (ascii "io") (by decide)
  have hflat : memcmp (c :: mem) (ascii "flat") = .ok false := hkind (ascii "lat") (by decide)
  rw [emptyObject, hfio, hflat]
  rfl

theorem length_le_length_writtenMembers (kvs : List (Bytes × Bytes)) :
    6 * kvs.length ≤ (writtenMembers kvs).length := by
  induction kvs using writtenMembers.induct with
  | case1 => decide
  | case2 kv => simp [writtenMembers, quoted]; omega
  | case3 kv kvs hne ih =>
    simp only [writtenMembers, quoted, List.length_append, List.length_cons]
    omega

/-- **An object of strings is read back from the text that writes it.** -/
theorem load_written (doubles : Doubles Double) {kvs : List (Bytes × Bytes)} (hne : kvs ≠ [])
    (h : Writable kvs) :
    load doubles (written kvs) = .ok (.object (readMembers [] kvs), .success) := by
  obtain ⟨kv, kvs, rfl⟩ := List.exists_cons_of_ne_nil hne
  obtain ⟨mem, hmem⟩ : ∃ mem, writtenMembers (kv :: kvs) = 34 :: mem := by
    cases kvs <;> exact ⟨_, rfl⟩
  have hlen := length_le_length_writtenMembers (kv :: kvs)
  rw [hmem] at hlen
  have hread := parseMembers_written doubles .string .success [0] (kv :: kvs)
    (2 * (123 :: 34 :: mem).length + 2) [] hne (by simp only [List.length_cons] at hlen ⊢; omega) h
  rw [hmem] at hread
  have hobj : (emptyObject (34 :: (mem ++ [0])) : Except Fault (JSON Double × Bytes)) =
      .ok (.object [], 34 :: (mem ++ [0])) := by
    refine emptyObject_cons (by decide) ?_
    simp only [List.length_cons, List.length_append] at hlen ⊢
    omega
  rw [load, written, hmem, if_neg (by simp), parseNext]
  change ((emptyObject (34 :: (mem ++ [0])) >>= _) >>= _) = _
  rw [hobj]
  change (parseMembers doubles .string _ _ _ (34 :: mem ++ [0]) >>= _) = _
  rw [hread]
  rfl

end Dcap.JSON
