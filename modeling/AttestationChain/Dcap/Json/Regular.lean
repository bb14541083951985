import AttestationChain.Dcap.Json.Lexemes

/-!
# Dcap/Json/Regular — what every parsed document is like

A document that was read holds no string that would be read as something else, hashes of 32 bytes,
integers that fit a `long`, arrays of fewer than `2 ^ 32` elements, and objects whose keys go up and
are escaped (`Reads.regular`).
-/

namespace Dcap.JSON

variable {Double : Type} {doubles : Doubles Double}

/-- A key as it is kept: escaped, of a string that stands for itself. -/
def OwnName (name : Bytes) : Prop := ∃ x, name = escaped x ∧ ¬ Tagged x

/-- **A regular document.** -/
inductive Regular : JSON Double → Prop
  | null : Regular .null
  | object {map} (hsorted : Sorted map) (hnames : ∀ kv ∈ map, OwnName kv.1)
      (hvals : ∀ kv ∈ map, Regular kv.2) : Regular (.object map)
  | fioObject {keys vals} : Regular (.fioObject keys vals)
  | flatObject {keys vals} : Regular (.flatObject keys vals)
  | array {list} (hlist : list.length < uint32Size) (h : ∀ v ∈ list, Regular v) :
      Regular (.array list)
  | hash {hashList} (h : hashList.length = 32) : Regular (.hash hashList)
  | buffer {bufferList} : Regular (.buffer bufferList)
  | string {s} (h : ¬ Tagged s) : Regular (.string s)
  | floating {d} : Regular (.floating d)
  | integral {i} (hlo : -2 ^ 63 ≤ i) (hhi : i < 2 ^ 63) : Regular (.integral i)
  | boolean {b} : Regular (.boolean b)

/-! ## Names -/

theorem not_tagged_of_head {s : Bytes} (h : s.head? ≠ some 36) : ¬ Tagged s := by
  have hno : ∀ {tag : Bytes}, tag.head? = some 36 → ¬ tag <+: s := by
    rintro tag htag ⟨t, rfl⟩
    rw [List.head?_append, htag] at h
    exact h rfl
  rintro (⟨hhash, -⟩ | hbuff)
  · exact hno rfl hhash
  · exact hno rfl hbuff

/-- A text of plain characters that does not start with a dollar sign is a name. -/
theorem ownName_plain {s : Bytes} (h : ∀ c ∈ s, PlainByte c ∧ c ≠ 36) : OwnName s := by
  refine ⟨s, (escaped_plain fun c hc => (h c hc).1).symm, not_tagged_of_head fun hhead => ?_⟩
  exact (h 36 (List.mem_of_mem_head? hhead)).2 rfl

theorem ownName_hexstring (block : Bytes) : OwnName (hexstring block) := by
  have hplain : ∀ d ∈ hextable, PlainByte d ∧ d ≠ 36 := forall_mem_of_all (by decide)
  exact ownName_plain fun c hc => hplain c (mem_hexstring hc)

theorem plainByte_of_isDigit {c : UInt8} (h : isDigit c = true) : PlainByte c ∧ c ≠ 36 := by
  rw [isDigit, Bool.and_eq_true, decide_eq_true_eq, decide_eq_true_eq] at h
  have hne : ∀ d : UInt8, ¬ (48 ≤ d ∧ d ≤ 57) → c ≠ d := by
    rintro d hd rfl
    exact hd h
  exact ⟨⟨UInt8.le_trans (by decide) h.1, UInt8.lt_of_le_of_lt h.2 (by decide), hne 34 (by decide),
    hne 92 (by decide)⟩, hne 36 (by decide)⟩

theorem ownName_toDecimal (i : ℤ) : OwnName (toDecimal i) := by
  obtain ⟨ds, hw, -, hds⟩ := (isDigits_toDecimal i).1
  rw [List.all_eq_true] at hds
  refine ownName_plain ?_
  rcases hw with hw | hw
  · rw [hw]
    exact fun c hc => plainByte_of_isDigit (hds c hc)
  · rw [hw]
    exact List.forall_mem_cons.2 ⟨by decide, fun c hc => plainByte_of_isDigit (hds c hc)⟩

/-- The name of a key of a regular document. -/
theorem Regular.ownName {key : JSON Double} (h : Regular key) {name : Bytes}
    (hname : key.toString = .ok name) : OwnName name := by
  cases h with
  | string hs =>
    rw [toString, jsonEscape] at hname
    split_ifs at hname
    cases hname
    exact ⟨_, rfl, hs⟩
  | hash _ =>
    cases hname
    exact ownName_hexstring _
  | buffer =>
    cases hname
    exact ownName_hexstring _
  | integral _ _ =>
    cases hname
    exact ownName_toDecimal _
  | _ =>
    cases hname
    exact ownName_plain (by simp)

/-! ## Readings -/

theorem Regular.of_stringValue {val : Bytes} {v : JSON Double} (h : stringValue val = .ok v) :
    Regular v := by
  rcases @stringValue_cases Double val with
    ⟨hhash, heven, block, hblock, h'⟩ | ⟨hbuff, block, h'⟩ | ⟨htag, h'⟩
  · rw [h'] at h
    split_ifs at h with hshort
    cases h
    have hlen := (length_hexstringToBytes hblock).2
    rw [List.length_drop] at hlen
    refine .hash ?_
    rw [List.length_take]
    omega
  · rw [h'] at h
    split_ifs at h
    cases h
    exact .buffer
  · rw [h'] at h
    cases h
    exact .string htag

theorem emptyObject_cases {mem r : Bytes} {obj : JSON Double}
    (h : emptyObject mem = .ok (obj, r)) :
    obj = .object [] ∨ obj = .fioObject [] [] ∨ obj = .flatObject [] [] := by
  cases emptyObject_eq_ok_iff.1 h with
  | fio => exact .inr (.inl rfl)
  | flat => exact .inr (.inr rfl)
  | plain => exact .inl rfl

theorem regular_emptyObject {mem r : Bytes} {obj : JSON Double}
    (h : emptyObject mem = .ok (obj, r)) : Regular obj := by
  rcases emptyObject_cases h with rfl | rfl | rfl
  · exact .object .nil (by simp) (by simp)
  · exact .fioObject
  · exact .flatObject

theorem regular_ordered (flat : Bool) (keys : List (Bytes × Bytes))
    (vals : List (Bytes × JSON Double)) : Regular (ordered flat keys vals) := by
  cases flat
  · exact .fioObject
  · exact .flatObject

/-- A value that is put leaves a regular document regular. -/
theorem Regular.putMember {key obj v obj' : JSON Double} (hkey : Regular key) (hobj : Regular obj)
    (hv : Regular v) (h : JSON.putMember key obj v = .ok obj') : Regular obj' := by
  obtain ⟨name, hname, hset⟩ := bind_eq_ok.1 h
  have hown := hkey.ownName hname
  rcases set_cases hset with ⟨map, rfl, rfl⟩ | ⟨flat, keys, vals, r, rfl, -, rfl⟩ | rfl
  · cases hobj with
    | object hsorted hnames hvals =>
      refine .object (sorted_mapSet hsorted name v) (fun kv hkv => ?_) fun kv hkv => ?_
      · rcases mem_mapSet hkv with rfl | hkv
        · exact hown
        · exact hnames kv hkv
      · rcases mem_mapSet hkv with rfl | hkv
        · exact hv
        · exact hvals kv hkv
  · exact regular_ordered flat _ _
  · exact .object (List.pairwise_singleton ..) (by simpa using hown) (by simpa using hv)

mutual

/-- **What is read is regular.** -/
theorem Reads.regular {mem r : Bytes} {v : JSON Double} (h : Reads doubles mem v r) : Regular v :=
  match h with
  | .string _ _ hv => .of_stringValue hv
  | .yes _ => .boolean
  | .no _ => .boolean
  | .null _ => .null
  | .integral _ _ _ _ _ hi => .integral (stol_range hi).1 (stol_range hi).2
  | .floating _ _ _ => .floating
  | .emptyArray _ _ => .array (by simp [uint32Size]) (by simp)
  | .array _ _ _ helements hlist => .array hlist helements.regular
  | .emptyObject _ hkind _ => regular_emptyObject hkind
  | .object _ hkind _ _ hmembers => hmembers.regular (regular_emptyObject hkind)

theorem ReadsElements.regular {mem r : Bytes} {vs : List (JSON Double)}
    (h : ReadsElements doubles mem vs r) : ∀ v ∈ vs, Regular v :=
  match h with
  | .cons h _ hrest => List.forall_mem_cons.2 ⟨h.regular, hrest.regular⟩
  | .last h _ => List.forall_mem_singleton.2 h.regular

theorem ReadsMembers.regular {mem r : Bytes} {obj obj' : JSON Double}
    (h : ReadsMembers doubles obj mem obj' r) (hobj : Regular obj) : Regular obj' :=
  match h with
  | .cons hkey _ h hput _ hrest => hrest.regular (hkey.regular.putMember hobj h.regular hput)
  | .last hkey _ h hput _ => hkey.regular.putMember hobj h.regular hput

end

end Dcap.JSON
