import AttestationChain.Dcap.Json.Blanks
import AttestationChain.Dcap.Json.Lexemes
import AttestationChain.Dcap.Json.Shown

/-!
# Dcap/Json/Alongside — the two printers side by side

Of one document `dump` and `dump_vector` write the same parts in the same order, with other blanks
in between (`Along`).  Their texts come to the same without those blanks just if every key that is
shown ends inside of its quotation marks, and no object loses its kind because there is nothing in
it (`Along.agreesIff`).
-/

namespace Dcap.JSON

variable {Double : Type}

/-! ## Objects of any kind -/

/-- The kind that is written behind the brace of an object. -/
def kindText (inType : Bool) : JSON Double → Bytes
  | .fioObject _ _ => if inType then ascii "fio" else []
  | .flatObject _ _ => if inType then ascii "flat" else []
  | _ => []

/-! ## The text of a string -/

/-- **The text of a string**: no quotation mark in it but behind a backslash, and no backslash that
has nothing behind it. -/
def StringText : Bytes → Prop
  | [] => True
  | [c] => c ≠ 34 ∧ c ≠ 92
  | c :: e :: s => if c = 92 then StringText s else c ≠ 34 ∧ StringText (e :: s)

theorem stringText_cons {c : UInt8} (hquote : c ≠ 34) (hescape : c ≠ 92) {s : Bytes} :
    StringText (c :: s) ↔ StringText s := by
  cases s with
  | nil => exact iff_of_true ⟨hquote, hescape⟩ trivial
  | cons e s =>
    rw [StringText, if_neg hescape]
    exact and_iff_right hquote

theorem stringText_escaped (s : Bytes) : StringText (escaped s) := by
  induction s with
  | nil => trivial
  | cons c s ih =>
    rw [escaped_cons, escapeByte]
    split_ifs
    all_goals first
      | exact ih
      | exact (stringText_cons ‹_› ‹_›).2 ih

/-- Behind the text of a string one is still inside of it. -/
theorem StringText.after {s : Bytes} (h : StringText s) : Spot.quoted.after s = .quoted := by
  induction s using StringText.induct with
  | case1 => rfl
  | case2 c =>
    rw [Spot.after_cons, Spot.step, if_neg h.1, if_neg h.2]
    rfl
  | case3 e s ih =>
    rw [StringText, if_pos rfl] at h
    exact ih h
  | case4 c e s hescape ih =>
    rw [StringText, if_neg hescape] at h
    rw [Spot.after_cons, Spot.step, if_neg h.1, if_neg hescape]
    exact ih h.2

theorem after_of_notMem {s : Bytes} (h : 34 ∉ s) : Spot.plain.after s = .plain := by
  induction s with
  | nil => rfl
  | cons c s ih =>
    rw [List.mem_cons, not_or] at h
    rw [Spot.after_cons, Spot.step, if_neg (Ne.symm h.1), ih h.2]

/-! ## Texts side by side -/

/-- The text of what holds no other document. -/
inductive LeafText : JSON Double → Bytes → Prop
  | null : LeafText .null (ascii "null")
  | boolean (b : Bool) : LeafText (.boolean b) (if b then ascii "true" else ascii "false")
  | integral (i : ℤ) : LeafText (.integral i) (toDecimal i)
  | string (s : Bytes) : LeafText (.string s) (34 :: (escaped s ++ [34]))
  | hash (h : Bytes) : LeafText (.hash h) (34 :: (escaped (hashTag ++ hexstring h) ++ [34]))
  | buffer (b : Bytes) : LeafText (.buffer b) (34 :: (escaped (buffTag ++ hexstring b) ++ [34]))

/-- A tag and a text in hexadecimal stand as they are. -/
theorem escaped_tagged {tag : Bytes} (htag : ∀ c ∈ tag, PlainByte c) (b : Bytes) :
    escaped (tag ++ hexstring b) = tag ++ hexstring b :=
  escaped_plain (List.forall_mem_append.2 ⟨htag, plain_hexstring b⟩)

theorem leafText_hash (h : Bytes) :
    LeafText (.hash h : JSON Double) (34 :: (hashTag ++ hexstring h ++ [34])) := by
  have hleaf := @LeafText.hash Double h
  rwa [escaped_tagged (forall_mem_of_all (by decide))] at hleaf

theorem leafText_buffer (b : Bytes) :
    LeafText (.buffer b : JSON Double) (34 :: (buffTag ++ hexstring b ++ [34])) := by
  have hleaf := @LeafText.buffer Double b
  rwa [escaped_tagged (forall_mem_of_all (by decide))] at hleaf

/-- **What `dump` and `dump_vector` write of a document**, side by side. -/
inductive Along (inType : Bool) : JSON Double → Bytes → Bytes → Prop
  | leaf {v t} (h : LeafText v t) : Along inType v t t
  | array {list : List (JSON Double)} {text text' : JSON Double → Bytes} {a sep z}
      (ha : Blank a) (hsep : Spaced 44 sep) (hz : Blank z) (hclosing : z ≠ [])
      (h : ∀ v ∈ list, Along inType v (text v) (text' v)) :
      Along inType (.array list) (between 91 93 a sep z (list.map text))
        (between 91 93 [] [44] [] (list.map text'))
  | empty {v} (hv : v.objectMembers = some []) :
      Along inType v [123, 125] (between 123 125 (kindText inType v) [44] [] [])
  | object {v members} {text text' : JSON Double → Bytes} {a sep z}
      (hv : v.objectMembers = some members) (hne : members ≠ [])
      (ha : Blank a) (hsep : Spaced 44 sep) (hz : Blank z) (hclosing : z ≠ [])
      (h : ∀ kv ∈ members, Along inType kv.2 (text kv.2) (text' kv.2)) :
      Along inType v
        (between 123 125 (kindText inType v ++ a) sep z
          (members.map fun kv => member kv.1 (ascii " : ") (text kv.2)))
        (between 123 125 (kindText inType v) [44] []
          (members.map fun kv => member kv.1 [58] (text' kv.2)))

/-- A document of those that are compared: a hash has 32 bytes, and a number is a `long`. -/
def IsCompared : JSON Double → Prop
  | .pair _ _ | .floating _ => False
  | .hash hashList => hashList.length = 32
  | .integral i => -2 ^ 63 ≤ i ∧ i < 2 ^ 63
  | _ => True

section Printed

variable (doubles : Doubles Double) {tab : Bytes} {inType : Bool} {depth : ℕ} {v : JSON Double}
  {t u : Bytes}

theorem along_object {members : List (Bytes × JSON Double)} (hv : v.objectMembers = some members)
    {a sep z : Bytes} (ha : Blank a) (hsep : Spaced 44 sep) (hz : Blank z) (hclosing : z ≠ [])
    (ht : (dumpEntries doubles tab inType some depth members >>= fun entries =>
      .ok (if entries = [] then [123, 125] else
        between 123 125 (kindText inType v ++ a) sep z entries)) = .ok t)
    (hu : (vectorEntries doubles inType some members >>= fun entries =>
      .ok (between 123 125 (kindText inType v) [44] [] entries)) = .ok u)
    (ih : ∀ kv ∈ members, ∀ t u, dump doubles tab inType depth kv.2 = .ok t →
      dumpVector doubles inType kv.2 = .ok u → Along inType kv.2 t u) : Along inType v t u := by
  obtain ⟨text, htext⟩ := exists_text (dump doubles tab inType depth)
  obtain ⟨text', htext'⟩ := exists_text (dumpVector doubles inType)
  rw [dumpEntries_eq] at ht
  rw [vectorEntries_eq] at hu
  obtain ⟨ts, hts, ht⟩ := bind_eq_ok.1 ht
  obtain ⟨us, hus, hu⟩ := bind_eq_ok.1 hu
  cases ht
  cases hu
  obtain ⟨rfl, hdumped⟩ := members_texts hts htext
  obtain ⟨rfl, hvector⟩ := members_texts hus htext'
  by_cases hne : members = []
  · subst hne
    exact .empty hv
  · rw [if_neg fun h => hne (List.map_eq_nil_iff.1 h)]
    exact .object hv hne ha hsep hz hclosing fun kv hkv =>
      ih kv hkv _ _ (hdumped kv hkv) (hvector kv hkv)

theorem along_array (htab : Blank tab) {list : List (JSON Double)}
    (ht : dump doubles tab inType depth (.array list) = .ok t)
    (hu : dumpVector doubles inType (.array list) = .ok u)
    (ih : ∀ v ∈ list, ∀ t u, dump doubles tab inType (depth + 1) v = .ok t →
      dumpVector doubles inType v = .ok u → Along inType v t u) :
    Along inType (.array list) t u := by
  obtain ⟨text, htext⟩ := exists_text (dump doubles tab inType (depth + 1))
  obtain ⟨text', htext'⟩ := exists_text (dumpVector doubles inType)
  rw [dump, dumpElements_eq] at ht
  rw [dumpVector, vectorElements_eq] at hu
  obtain ⟨ts, hts, ht⟩ := bind_eq_ok.1 ht
  obtain ⟨us, hus, hu⟩ := bind_eq_ok.1 hu
  obtain ⟨rfl, hdumped⟩ := mapM_ok_texts hts htext
  obtain ⟨rfl, hvector⟩ := mapM_ok_texts hus htext'
  obtain rfl := Except.ok.inj ht
  obtain rfl := Except.ok.inj hu
  have hpad := blank_padding htab depth
  have hsep : Spaced 44 (ascii ", \n" ++ padding tab depth) :=
    ⟨[], ascii " \n" ++ padding tab depth, blank_nil,
      Blank.append (forall_mem_of_all (by decide)) hpad, rfl⟩
  have halong : Along inType (.array list)
      (between 91 93 (10 :: padding tab depth) (ascii ", \n" ++ padding tab depth)
        (10 :: (padding tab depth).drop 2) (list.map text))
      (between 91 93 [] [44] [] (list.map text')) :=
    .array hpad.newline hsep (hpad.drop 2).newline (List.cons_ne_nil _ _) fun v hv =>
      ih v hv _ _ (hdumped v hv) (hvector v hv)
  rw [← between_eq, ← between_eq] at halong
  exact halong

theorem block_eq_between (pad kind : Bytes) (entries : List Bytes) : block pad kind entries =
    if entries = [] then [123, 125] else
      between 123 125 (kind ++ 10 :: pad) (ascii ",\n" ++ pad) (10 :: pad.drop 2) entries := by
  cases entries with
  | nil => rfl
  | cons e es => exact block_eq pad kind e es

theorem flat_eq_between (kind : Bytes) (entries : List Bytes) :
    braces (ascii "\x7b" ++ kind ++ ascii " ") (ascii ", ") (ascii " \x7d") entries =
      if entries = [] then [123, 125]
      else between 123 125 (kind ++ [32]) [44, 32] [32] entries := by
  rw [braces, ← between_eq]
  rfl

theorem vector_kind_eq_between (kind : Bytes) (entries : List Bytes) :
    ascii "\x7b" ++ kind ++ (ascii ",").intercalate entries ++ ascii "\x7d" =
      between 123 125 kind [44] [] entries := between_eq 123 125 kind [44] [] entries

theorem vector_eq_between (entries : List Bytes) :
    ascii "\x7b" ++ (ascii ",").intercalate entries ++ ascii "\x7d" =
      between 123 125 [] [44] [] entries := between_eq 123 125 [] [44] [] entries

/-- **The texts of a document are written side by side.** -/
theorem along_of_printed (htab : Blank tab) (hcompared : ShownThroughout IsCompared v)
    (ht : dump doubles tab inType depth v = .ok t) (hu : dumpVector doubles inType v = .ok u) :
    Along inType v t u := by
  induction v using childrenInduction generalizing depth t u with
  | h v ih =>
  rw [shownThroughout_iff] at hcompared
  obtain ⟨hnode, hparts⟩ := hcompared
  have hpad := blank_padding htab depth
  cases v with
  | null =>
    cases ht
    cases hu
    exact .leaf .null
  | boolean b =>
    cases ht
    cases hu
    exact .leaf (.boolean b)
  | integral i =>
    cases ht
    cases hu
    exact .leaf (.integral i)
  | string s =>
    obtain ⟨k, hk, ht⟩ := bind_eq_ok.1 ht
    obtain ⟨k', hk', hu⟩ := bind_eq_ok.1 hu
    cases ht
    cases hu
    obtain rfl := escaped_of_jsonEscape hk
    obtain rfl := escaped_of_jsonEscape hk'
    exact .leaf (.string s)
  | hash b =>
    cases ht
    cases hu
    exact .leaf (leafText_hash b)
  | buffer b =>
    cases ht
    cases hu
    exact .leaf (leafText_buffer b)
  | array list => exact along_array doubles htab ht hu fun w hw t u => ih w hw (hparts w hw)
  | object map =>
    rw [dump] at ht
    rw [dumpVector] at hu
    simp only [block_eq_between] at ht
    simp only [vector_eq_between] at hu
    refine along_object doubles rfl hpad.newline ⟨[], _, blank_nil, hpad.newline, rfl⟩
      (hpad.drop 2).newline (List.cons_ne_nil _ _) ht hu fun kv hkv t u => ?_
    exact ih kv.2 (List.mem_map_of_mem hkv) (hparts kv.2 (List.mem_map_of_mem hkv))
  | fioObject keys vals =>
    rw [dump, dumpEntries_shownKey] at ht
    rw [dumpVector, vectorEntries_shownKey] at hu
    simp only [block_eq_between] at ht
    simp only [vector_kind_eq_between] at hu
    refine along_object doubles rfl hpad.newline ⟨[], _, blank_nil, hpad.newline, rfl⟩
      (hpad.drop 2).newline (List.cons_ne_nil _ _) ht hu fun kv hkv t u => ?_
    exact ih kv.2 (mem_shownMembers hkv) (hparts kv.2 (List.mem_map_of_mem hkv))
  | flatObject keys vals =>
    rw [dump, dumpEntries_shownKey] at ht
    rw [dumpVector, vectorEntries_shownKey] at hu
    simp only [flat_eq_between] at ht
    simp only [vector_kind_eq_between] at hu
    have hspace : Blank [32] := forall_mem_of_all (by decide)
    refine along_object doubles rfl hspace ⟨[], _, blank_nil, hspace, rfl⟩ hspace
      (List.cons_ne_nil _ _) ht hu fun kv hkv t u => ?_
    exact ih kv.2 (mem_shownMembers hkv) (hparts kv.2 (List.mem_map_of_mem hkv))
  | _ => exact hnode.elim

end Printed

/-! ## Where the texts agree -/

/-- A key that ends inside of its quotation marks. -/
def EndsQuoted (key : Bytes) : Prop := Spot.quoted.after key = .quoted

/-- **A document that both printers write alike**, but for what is in it: its keys are of a kind,
and it has none itself to be written where it shows nothing else. -/
def WrittenAlike (IsKey : Bytes → Prop) (inType : Bool) (v : JSON Double) : Prop :=
  ∀ members, v.objectMembers = some members →
    (∀ kv ∈ members, IsKey kv.1) ∧ (members = [] → kindText inType v = [])

theorem agreesIff_member {key t u : Bytes} {ok : Prop} (h : AgreesIff ok t u) :
    AgreesIff (EndsQuoted key ∧ ok) (member key (ascii " : ") t) (member key [58] u) := by
  have hcolon : Agree (ascii " : ") [58] := .spaced rfl
    ⟨[32], [32], forall_mem_of_all (by decide), forall_mem_of_all (by decide), rfl⟩
    ⟨[], [], blank_nil, blank_nil, rfl⟩
  have hkey : AgreesIff (EndsQuoted key) (34 :: (key ++ 34 :: ascii " : "))
      (34 :: (key ++ [34, 58])) := by
    constructor
    · intro hends
      have hname : Spot.plain.after (34 :: (key ++ [34])) = .plain := by
        rw [Spot.after_cons, Spot.after_append]
        exact congrArg (Spot.after · [34]) hends
      have := (Agree.refl hname).append hcolon
      rwa [List.cons_append, List.cons_append, List.append_assoc, List.append_assoc] at this
    · intro hends r r'
      -- The quotation mark behind the key opens a string, and the blank is in it.
      have hopens : (Spot.quoted.after key).step 34 = .quoted := by
        cases hspot : Spot.quoted.after key with
        | plain => rfl
        | quoted => exact absurd hspot hends
        | escaped => rfl
      have hsqueeze : ∀ c s, squeeze .plain (34 :: (key ++ 34 :: c :: s)) =
          (34 :: (squeeze .quoted key ++ [34])) ++ c :: squeeze (Spot.quoted.step c) s := by
        intro c s
        calc squeeze .plain (34 :: (key ++ 34 :: c :: s))
            = 34 :: squeeze .quoted (key ++ 34 :: c :: s) := squeeze_kept (.inr rfl) _
          _ = 34 :: (squeeze .quoted key ++ 34 :: squeeze .quoted (c :: s)) := by
            rw [squeeze_append, squeeze_kept (.inr rfl), hopens]
          _ = _ := by
            rw [squeeze_kept (.inl (by simp)), List.cons_append, List.append_assoc]
            rfl
      refine ⟨34 :: (squeeze .quoted key ++ [34]), 32, 58, squeeze .quoted (58 :: 32 :: r),
        squeeze .quoted r', ?_, ?_, by decide⟩
      · rw [List.cons_append, List.append_assoc]
        exact hsqueeze 32 _
      · rw [List.cons_append, List.append_assoc]
        exact hsqueeze 58 _
  have := hkey.append h
  rwa [List.cons_append, List.cons_append, List.append_assoc, List.append_assoc] at this

theorem agreesIff_between {α : Type} {text text' : α → Bytes} {okAt : α → Prop} {l : List α}
    {open_ close : UInt8} {a a' sep sep' z z' : Bytes} (hopen : Spot.plain.step open_ = .plain)
    (hclose : Spot.plain.step close = .plain) (ha : Agree a a') (hsep : Agree sep sep')
    (hz : Agree z z') (h : ∀ x ∈ l, AgreesIff (okAt x) (text x) (text' x)) :
    AgreesIff (∀ x ∈ l, okAt x) (between open_ close a sep z (l.map text))
      (between open_ close a' sep' z' (l.map text')) := by
  have hfront := AgreesIff.of_agree ((Agree.refl (t := [open_]) hopen).append ha)
  have hback := AgreesIff.of_agree (hz.append (Agree.refl (t := [close]) hclose))
  have hall := ((hfront.append (.intercalate hsep h)).append hback).of_iff
    ((iff_of_eq (and_true _)).trans (iff_of_eq (true_and _))).symm
  simpa only [between, List.append_assoc, List.cons_append, List.nil_append] using hall

theorem kindText_cases (inType : Bool) (v : JSON Double) :
    kindText inType v = [] ∨ kindText inType v = ascii "fio" ∨
    kindText inType v = ascii "flat" := by
  cases v with
  | fioObject keys vals => cases inType <;> simp [kindText]
  | flatObject keys vals => cases inType <;> simp [kindText]
  | _ => exact .inl rfl

/-- An object with nothing in it loses its kind in one of the texts, if it has one. -/
theorem agreesIff_empty (inType : Bool) (v : JSON Double) :
    AgreesIff (kindText inType v = []) [123, 125]
    (between 123 125 (kindText inType v) [44] [] []) := by
  constructor
  · intro hkind
    rw [hkind]
    exact Agree.refl rfl
  · intro hkind r r'
    have hapart : ∀ kind : Bytes, kind = ascii "fio" ∨ kind = ascii "flat" →
        Apart (squeeze .plain ([123, 125] ++ r))
        (squeeze .plain (between 123 125 kind [44] [] [] ++ r')) := by
      rintro kind (rfl | rfl)
      · exact ⟨[123], 125, 102, squeeze .plain r, squeeze .plain (ascii "io\x7d" ++ r'), rfl,
          rfl, by decide⟩
      · exact ⟨[123], 125, 102, squeeze .plain r, squeeze .plain (ascii "lat\x7d" ++ r'), rfl, rfl,
          by decide⟩
    exact hapart _ ((kindText_cases inType v).resolve_left hkind)

theorem LeafText.after {v : JSON Double} {t : Bytes} (h : LeafText v t) :
    Spot.plain.after t = .plain := by
  have hstring : ∀ s : Bytes, Spot.plain.after (34 :: (escaped s ++ [34])) = .plain := by
    intro s
    rw [Spot.after_cons, Spot.after_append]
    exact congrArg (Spot.after · [34]) (stringText_escaped s).after
  cases h with
  | null => rfl
  | boolean b => cases b <;> rfl
  | integral i =>
    refine after_of_notMem fun hmem => ?_
    have hnumber := List.all_eq_true.1 (isDigits_toDecimal i).1.all_isNumberChar 34 hmem
    exact absurd hnumber (by decide)
  | string s => exact hstring s
  | hash h => exact hstring _
  | buffer b => exact hstring _

variable {IsKey : Bytes → Prop}

theorem LeafText.writtenAlike {v : JSON Double} {t : Bytes} (h : LeafText v t) (inType : Bool) :
    ShownThroughout (WrittenAlike IsKey inType) v := by
  rw [shownThroughout_iff]
  cases h <;> exact ⟨fun _ h => (by cases h), fun _ h => (by cases h)⟩

theorem shownThroughout_object {inType : Bool} {v : JSON Double}
    {members : List (Bytes × JSON Double)}
    (hv : v.objectMembers = some members) : ShownThroughout (WrittenAlike IsKey inType) v ↔
      (members = [] → kindText inType v = []) ∧
      ∀ kv ∈ members, IsKey kv.1 ∧ ShownThroughout (WrittenAlike IsKey inType) kv.2 := by
  rw [shownThroughout_iff, parts_of_objectMembers hv, List.forall_mem_map]
  constructor
  · rintro ⟨hnode, hparts⟩
    exact ⟨(hnode members hv).2, fun kv hkv => ⟨(hnode members hv).1 kv hkv, hparts kv hkv⟩⟩
  · rintro ⟨hkind, hparts⟩
    refine ⟨fun members' hv' => ?_, fun kv hkv => (hparts kv hkv).2⟩
    obtain rfl := Option.some.inj (hv.symm.trans hv')
    exact ⟨fun kv hkv => (hparts kv hkv).1, hkind⟩

/-- **The two texts agree** where everything that is shown is written alike, and are set apart
elsewhere. -/
theorem Along.agreesIff {inType : Bool} {v : JSON Double} {t u : Bytes} (h : Along inType v t u) :
    AgreesIff (ShownThroughout (WrittenAlike EndsQuoted inType) v) t u := by
  induction h with
  | leaf h =>
    exact (AgreesIff.of_agree (.refl h.after)).of_iff (iff_true_intro (h.writtenAlike inType))
  | array ha hsep hz _ h ih =>
    have hcomma : Agree _ [44] := .spaced rfl hsep ⟨[], [], blank_nil, blank_nil, rfl⟩
    refine AgreesIff.of_iff
      (agreesIff_between rfl rfl (.blank ha blank_nil) hcomma (.blank hz blank_nil) ih) ?_
    rw [shownThroughout_iff]
    exact and_iff_right fun members hmembers => nomatch hmembers
  | @empty v hv =>
    refine (agreesIff_empty inType v).of_iff ?_
    rw [shownThroughout_object hv, and_iff_left (List.forall_mem_nil _)]
    exact ⟨fun h => h rfl, fun h _ => h⟩
  | @object v members text text' a sep z hv hne ha hsep hz _ h ih =>
    have hcomma : Agree _ [44] := .spaced rfl hsep ⟨[], [], blank_nil, blank_nil, rfl⟩
    have hkind : Agree (kindText inType v ++ a) (kindText inType v) := by
      have hself : Spot.plain.after (kindText inType v) = .plain := by
        rcases kindText_cases inType v with h | h | h <;> rw [h] <;> rfl
      have := (Agree.refl hself).append (.blank ha blank_nil)
      rwa [List.append_nil] at this
    refine (agreesIff_between rfl rfl hkind hcomma (.blank hz blank_nil) fun kv hkv =>
      agreesIff_member (ih kv hkv)).of_iff ?_
    rw [shownThroughout_object hv, and_iff_right fun h => (hne h).elim]

end Dcap.JSON
