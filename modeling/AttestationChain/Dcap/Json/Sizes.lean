import AttestationChain.Dcap.Json.Printers
import AttestationChain.Dcap.Json.Regular

/-!
# Dcap/Json/Sizes — the documents of short texts

A string is never longer than its text, and neither is a key: in a document that was read from less
than 4 GiB `json_escape` gets to the end of all of them (`Reads.short`).
-/

namespace Dcap.JSON

variable {Double : Type} {doubles : Doubles Double}

theorem throughout_and {P Q : JSON Double → Prop} {v : JSON Double} :
    Throughout (fun w => P w ∧ Q w) v ↔ Throughout P v ∧ Throughout Q v :=
  ⟨fun h => ⟨fun w hw => (h w hw).1, fun w hw => (h w hw).2⟩, fun h w hw => ⟨h.1 w hw, h.2 w hw⟩⟩

/-- A string and keys that `json_escape` gets to the end of. -/
def Short (v : JSON Double) : Prop := ShortString v ∧ ShortKeys v

/-! ## Names -/

theorem escaped_injective {s t : Bytes} (h : escaped s = escaped t) : s = t := by
  have hs := scanString_escaped s []
  rw [h, scanString_escaped] at hs
  cases hs
  rfl

theorem shortName_escaped {s : Bytes} : ShortName (escaped s) ↔ s.length < uint32Size :=
  ⟨fun h => h s rfl, fun h _ hx => escaped_injective hx ▸ h⟩

theorem shortName_of_length {name : Bytes} (h : name.length < uint32Size) : ShortName name :=
  fun x hx => (length_le_length_escaped x).trans_lt (hx ▸ h)

/-! ## Tokens -/

/-- What a scanner has of a string, with the quote that ends it. -/
def spelled (r : Option Bytes × Bytes) : Bytes := 34 :: r.1.getD []

theorem spelled_prepend {s : Bytes} {n : ℕ} {r : Except Fault (Option Bytes × Bytes)}
    (h : Leaves spelled n r) : Leaves spelled (s.length + n) (prepend s r) := by
  rcases r with fault | ⟨_ | val, mem⟩
  · exact h
  · exact le_trans h (Nat.le_add_left _ _)
  · change (34 :: (s ++ val)).length ≤ _
    change (34 :: val).length ≤ n at h
    simp only [List.length_cons, List.length_append] at h ⊢
    omega

/-- A string is shorter than its text. -/
theorem spelled_scanString (mem : Bytes) : Leaves spelled mem.length (scanString mem) := by
  fun_induction scanString mem with
  | case1 => simp [Leaves]
  | case2 => exact le_refl _
  | case3 c hc => simp [Leaves]
  | case4 e mem => exact Nat.succ_le_succ (Nat.zero_le _)
  | case5 c e mem hc hc' ih => exact (spelled_prepend ih).mono (by simp; omega)
  | case6 c e mem hc hc' he ih => exact (spelled_prepend ih).mono (by simp; omega)
  | case7 c e hc hc' he h₁ h₂ h₃ h₄ mem hhex ih => exact (spelled_prepend ih).mono (by simp; omega)
  | case8 c e hc hc' he h₁ h₂ h₃ h₄ mem hhex => exact Nat.succ_le_succ (Nat.zero_le _)
  | case9 c e hc hc' he mem hmem hhex => simp [Leaves]
  | case10 c e hc hc' he mem hmem hhex => exact Nat.succ_le_succ (Nat.zero_le _)

theorem length_scanString {mem val r : Bytes} (h : scanString mem = .ok (some val, r)) :
    val.length < mem.length := by
  have := spelled_scanString mem
  rw [h] at this
  exact this

theorem shortName_toDecimal {i : ℤ} (hlo : -2 ^ 63 ≤ i) (hhi : i < 2 ^ 63) :
    ShortName (toDecimal i) := by
  have hdigits : ∀ n : ℕ, n ≤ 2 ^ 63 → (ascii n.repr).length ≤ 19 := by
    intro n hn
    rw [ascii, List.length_map, String.length_toList, Nat.length_repr_le_iff (by decide)]
    omega
  refine shortName_of_length (lt_of_le_of_lt (b := 20) ?_ (by decide))
  cases i with
  | ofNat n =>
    have hle := hdigits n (Int.ofNat_lt.1 hhi).le
    change (ascii n.repr).length ≤ 20
    omega
  | negSucc n =>
    have hle := hdigits n.succ (by omega)
    rw [toDecimal_negSucc, List.length_cons]
    omega

theorem shortName_toString_string {s name : Bytes} (hs : s.length < uint32Size)
    (hname : (string s : JSON Double).toString = .ok name) : ShortName name := by
  rw [toString, jsonEscape, if_pos hs] at hname
  cases hname
  exact shortName_escaped.2 hs

/-- The key that a short string makes. -/
theorem shortName_of_stringValue {val name : Bytes} {v : JSON Double}
    (hval : val.length < uint32Size)
    (h : stringValue val = .ok v) (hname : v.toString = .ok name) : ShortName name := by
  have hhex : ∀ {tag block : Bytes}, hexstringToBytes (val.drop tag.length) = some block →
      (hexstring block).length < uint32Size := by
    intro tag block hblock
    have hlen := (length_hexstringToBytes hblock).2
    rw [List.length_drop] at hlen
    rw [length_hexstring]
    omega
  rw [stringValue] at h
  split at h
  · rcases hblock : hexstringToBytes (val.drop hashTag.length) with _ | block
    · rw [hblock] at h
      cases h
      exact shortName_toString_string hval hname
    · rw [hblock] at h
      change (if block.length < 32 then _ else _) = _ at h
      split_ifs at h
      cases h
      cases hname
      have := hhex hblock
      rw [length_hexstring] at this
      refine shortName_of_length ?_
      rw [length_hexstring, List.length_take]
      omega
  split at h
  · rcases hblock : hexstringToBytes (val.drop buffTag.length) with _ | block
    · rw [hblock] at h
      change (if val.length = 7 then _ else _) = _ at h
      split_ifs at h
      cases h
      cases hname
      exact shortName_of_length (by decide)
    · rw [hblock] at h
      cases h
      cases hname
      exact shortName_of_length (hhex hblock)
  · cases h
    exact shortName_toString_string hval hname

/-! ## Documents -/

theorem Reads.length_le {mem r : Bytes} {v : JSON Double} (h : Reads doubles mem v r) :
    r.length ≤ mem.length :=
  length_of_next (h.next_eq .success : next doubles .string .success mem = _)

theorem throughout_short_mapSet {map : List (Bytes × JSON Double)} {v : JSON Double}
    (hmap : ∀ u ∈ map.map Prod.snd, Throughout Short u) (hv : Throughout Short v) (name : Bytes) :
    ∀ u ∈ (mapSet name v map).map Prod.snd, Throughout Short u := by
  refine List.forall_mem_map.2 fun kv hkv => ?_
  rcases mem_mapSet hkv with rfl | hkv
  · exact hv
  · exact hmap _ (List.mem_map_of_mem hkv)

/-- Members are those of an object, whose key is empty. -/
theorem toString_putMember {key obj v obj' : JSON Double} (h : putMember key obj v = .ok obj') :
    obj'.toString = .ok [] := by
  obtain ⟨name, -, hset⟩ := bind_eq_ok.1 h
  rcases set_cases hset with ⟨map, rfl, rfl⟩ | ⟨flat, keys, vals, r, rfl, -, rfl⟩ | rfl
  · rfl
  · cases flat <;> rfl
  · rfl

/-- An ordered object notes its keys apart, so only its values count. -/
theorem throughout_short_ordered {flat : Bool} {keys : List (Bytes × Bytes)}
    {vals : List (Bytes × JSON Double)} :
    Throughout Short (ordered flat keys vals) ↔ ∀ v ∈ vals.map Prod.snd, Throughout Short v := by
  rw [throughout_iff]
  cases flat
  · exact and_iff_right ⟨trivial, trivial⟩
  · exact and_iff_right ⟨trivial, trivial⟩

/-- A value that is put under a short key. -/
theorem throughout_short_putMember {key obj v obj' : JSON Double}
    (hkey : ∀ name, key.toString = .ok name → ShortName name) (hobj : Throughout Short obj)
    (hv : Throughout Short v) (h : putMember key obj v = .ok obj') : Throughout Short obj' := by
  obtain ⟨name, hname, hset⟩ := bind_eq_ok.1 h
  rcases set_cases hset with ⟨map, rfl, rfl⟩ | ⟨flat, keys, vals, r, rfl, -, rfl⟩ | rfl
  · rw [throughout_iff] at hobj ⊢
    refine ⟨⟨trivial, fun kv hkv => ?_⟩, throughout_short_mapSet hobj.2 hv name⟩
    rcases mem_mapSet hkv with rfl | hkv
    · exact hkey name hname
    · exact hobj.1.2 kv hkv
  · rw [throughout_short_ordered] at hobj ⊢
    exact throughout_short_mapSet hobj hv r.1
  · rw [throughout_iff]
    exact ⟨⟨trivial, by simpa [ShortKeys] using hkey name hname⟩, by simpa [children] using hv⟩

theorem throughout_short_leaf {v : JSON Double} (hleaf : v.children = []) (h : Short v) :
    Throughout Short v := (throughout_leaf hleaf).2 h

theorem throughout_short_emptyObject {mem r : Bytes} {obj : JSON Double}
    (h : emptyObject mem = .ok (obj, r)) : Throughout Short obj := by
  rcases emptyObject_cases h with rfl | rfl | rfl
  · exact throughout_short_leaf rfl ⟨trivial, by simp [ShortKeys]⟩
  · exact throughout_short_leaf rfl ⟨trivial, trivial⟩
  · exact throughout_short_leaf rfl ⟨trivial, trivial⟩

theorem throughout_short_stringValue {val : Bytes} {v : JSON Double}
    (hval : val.length < uint32Size) (h : stringValue val = .ok v) : Throughout Short v := by
  rcases @stringValue_cases Double val with ⟨-, -, block, -, h'⟩ | ⟨-, block, h'⟩ | ⟨-, h'⟩
  · rw [h'] at h
    split_ifs at h
    cases h
    exact throughout_short_leaf rfl ⟨trivial, trivial⟩
  · rw [h'] at h
    split_ifs at h
    cases h
    exact throughout_short_leaf rfl ⟨trivial, trivial⟩
  · rw [h'] at h
    cases h
    exact throughout_short_leaf rfl ⟨hval, trivial⟩

mutual

theorem ReadsMembers.toString_eq {mem r : Bytes} {obj obj' : JSON Double}
    (h : ReadsMembers doubles obj mem obj' r) : obj'.toString = .ok [] :=
  match h with
  | .cons _ _ _ _ _ hrest => hrest.toString_eq
  | .last _ _ _ hput _ => toString_putMember hput

/-- The key that a value makes, read from less than 4 GiB. -/
theorem Reads.shortName {mem r name : Bytes} {v : JSON Double} (h : Reads doubles mem v r)
    (hmem : mem.length ≤ uint32Size) (hname : v.toString = .ok name) : ShortName name := by
  have hempty : v.toString = .ok [] → ShortName name := by
    intro h
    rw [h] at hname
    cases hname
    exact shortName_of_length (by decide)
  cases h with
  | string hws hscan hv =>
    have hlen := length_consumeWs hws
    have hval := length_scanString hscan
    rw [List.length_cons] at hlen
    exact shortName_of_stringValue (by omega) hv hname
  | integral hws hc hscan hend hdot hi =>
    cases hname
    exact shortName_toDecimal (stol_range hi).1 (stol_range hi).2
  | emptyObject hws hkind =>
    rcases emptyObject_cases hkind with rfl | rfl | rfl
    · exact hempty rfl
    · exact hempty rfl
    · exact hempty rfl
  | object hws hkind hmem hc hmembers => exact hempty hmembers.toString_eq
  | _ => exact hempty rfl

/-- **What is read from less than 4 GiB** has short strings and keys. -/
theorem Reads.short {mem r : Bytes} {v : JSON Double} (h : Reads doubles mem v r)
    (hmem : mem.length ≤ uint32Size) : Throughout Short v :=
  match h with
  | .string hws hscan hv => by
    have hlen := length_consumeWs hws
    have hval := length_scanString hscan
    rw [List.length_cons] at hlen
    exact throughout_short_stringValue (by omega) hv
  | .yes _ => throughout_short_leaf rfl ⟨trivial, trivial⟩
  | .no _ => throughout_short_leaf rfl ⟨trivial, trivial⟩
  | .null _ => throughout_short_leaf rfl ⟨trivial, trivial⟩
  | .integral _ _ _ _ _ _ => throughout_short_leaf rfl ⟨trivial, trivial⟩
  | .floating _ _ _ => throughout_short_leaf rfl ⟨trivial, trivial⟩
  | .emptyArray _ _ => throughout_short_leaf rfl ⟨trivial, trivial⟩
  | .array hws hws' _ helements _ => by
    have hlen := length_consumeWs hws
    have hlen' := length_consumeWs hws'
    rw [List.length_cons] at hlen
    exact throughout_array.2 ⟨⟨trivial, trivial⟩, helements.short (by omega)⟩
  | .emptyObject _ hkind _ => throughout_short_emptyObject hkind
  | .object hws hkind hws' _ hmembers => by
    have hlen := length_consumeWs hws
    have hlen' := length_consumeWs hws'
    rw [List.length_cons] at hlen
    exact hmembers.short (hlen'.trans ((length_emptyObject hkind).trans (by omega)))
      (throughout_short_emptyObject hkind)

theorem ReadsElements.short {mem r : Bytes} {vs : List (JSON Double)}
    (h : ReadsElements doubles mem vs r) (hmem : mem.length ≤ uint32Size) :
    ∀ v ∈ vs, Throughout Short v :=
  match h with
  | .cons h hcomma hrest => by
    have hlen := h.length_le
    have hlen' := length_consumeWs hcomma
    rw [List.length_cons] at hlen'
    exact List.forall_mem_cons.2 ⟨h.short hmem, hrest.short (by omega)⟩
  | .last h _ => List.forall_mem_singleton.2 (h.short hmem)

theorem ReadsMembers.short {mem r : Bytes} {obj obj' : JSON Double}
    (h : ReadsMembers doubles obj mem obj' r) (hmem : mem.length ≤ uint32Size)
    (hobj : Throughout Short obj) : Throughout Short obj' :=
  match h with
  | .cons hkey hcolon h hput hcomma hrest => by
    have hkeyLen := hkey.length_le
    have hcolonLen := length_consumeWs hcolon
    have hlen := h.length_le
    have hcommaLen := length_consumeWs hcomma
    rw [List.length_cons] at hcolonLen hcommaLen
    exact hrest.short (by omega) (throughout_short_putMember
      (fun _ hname => hkey.shortName hmem hname) hobj (h.short (by omega)) hput)
  | .last hkey hcolon h hput _ => by
    have hkeyLen := hkey.length_le
    have hcolonLen := length_consumeWs hcolon
    rw [List.length_cons] at hcolonLen
    exact throughout_short_putMember (fun _ hname => hkey.shortName hmem hname) hobj
      (h.short (by omega)) hput

end

end Dcap.JSON
