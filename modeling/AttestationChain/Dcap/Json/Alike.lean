import AttestationChain.Dcap.Json.Reread

/-!
# Dcap/Json/Alike — the two printers agree

The two texts of a document are read alike: under one condition on what is shown, as one value
(`Along.readAlike`).  For that the keys must be the texts of strings, so that what stands between
the quotation marks of a key is one string to the parser.
-/

namespace Dcap.JSON

variable {Double : Type} {doubles : Doubles Double}

/-! ## Keys that can be put -/

/-- **Two objects of one kind under the same keys.** -/
inductive SameKeys : JSON Double → JSON Double → Prop
  | object {map map'} : SameKeys (.object map) (.object map')
  | ordered {flat keys vals vals'} (h : vals.map Prod.fst = vals'.map Prod.fst) :
      SameKeys (ordered flat keys vals) (ordered flat keys vals')

theorem SameKeys.ne_integral {obj obj' : JSON Double} (h : SameKeys obj obj') (i : ℤ) :
    obj' ≠ .integral i := by
  cases h with
  | object => exact fun h => nomatch h
  | @ordered flat => cases flat <;> exact fun h => nomatch h

theorem map_fst_mapSet {V : Type} {map map' : List (Bytes × V)}
    (h : map.map Prod.fst = map'.map Prod.fst) (key : Bytes) (v v' : V) :
    (mapSet key v map).map Prod.fst = (mapSet key v' map').map Prod.fst := by
  induction map generalizing map' with
  | nil =>
    obtain rfl := List.map_eq_nil_iff.1 h.symm
    rfl
  | cons kv map ih =>
    obtain _ | ⟨kv', map'⟩ := map'
    · cases h
    obtain ⟨hkey, h⟩ := List.cons.inj h
    rw [mapSet, mapSet, ← hkey]
    split_ifs
    · exact congrArg (key :: ·) h
    · exact congrArg (key :: ·) (congrArg₂ List.cons hkey h)
    · exact congrArg₂ List.cons hkey (ih h)

theorem fioKey_eq {keys : List (Bytes × Bytes)} {vals vals' : List (Bytes × JSON Double)}
    (h : vals.map Prod.fst = vals'.map Prod.fst) (key : Bytes) :
    fioKey keys vals key = fioKey keys vals' key := by
  have hlast : (vals.reverse.findSome? fun kv => numberTag kv.1) =
      vals'.reverse.findSome? fun kv => numberTag kv.1 := by
    have hnames := congrArg (fun names => names.reverse.findSome? numberTag) h
    simp only [← List.map_reverse, List.findSome?_map] at hnames
    exact hnames
  rw [fioKey, fioKey, numberedKey, numberedKey, hlast]

/-- **What can be put does not depend on the values**, nor do the keys then. -/
theorem SameKeys.set {obj obj' a : JSON Double} (h : SameKeys obj obj') {key : Bytes}
    {v : JSON Double} (hset : obj.set key v = .ok a) (v' : JSON Double) :
    ∃ b, obj'.set key v' = .ok b ∧ SameKeys a b := by
  cases h with
  | object =>
    cases hset
    exact ⟨_, rfl, .object⟩
  | ordered hvals =>
    have hset' : ∀ flat keys vals (w : JSON Double), (JSON.ordered flat keys vals).set key w =
        fioKey keys vals key >>= fun r => .ok (JSON.ordered flat r.2 (mapSet r.1 w vals)) := by
      intro flat keys vals w
      rw [JSON.set, place_ordered]
      cases fioKey keys vals key <;> rfl
    rw [hset'] at hset
    obtain ⟨r, hr, hset⟩ := bind_eq_ok.1 hset
    cases hset
    refine ⟨_, ?_, .ordered (map_fst_mapSet hvals r.1 v v')⟩
    rw [hset', ← fioKey_eq hvals, hr]
    rfl

theorem Puts.of_sameKeys {obj obj' a : JSON Double} {members members' : List (Bytes × JSON Double)}
    (h : Puts obj members a) (hobj : SameKeys obj obj')
    (hkeys : members.map Prod.fst = members'.map Prod.fst) :
    ∃ b, Puts obj' members' b ∧ SameKeys a b := by
  induction h generalizing obj' members' with
  | nil =>
    obtain rfl := List.map_eq_nil_iff.1 hkeys.symm
    exact ⟨obj', .nil, hobj⟩
  | cons hkey hput _ ih =>
    obtain _ | ⟨⟨k', v'⟩, members'⟩ := members'
    · cases hkeys
    obtain ⟨rfl, htail⟩ := List.cons.inj hkeys
    obtain ⟨name, hname, hset⟩ := bind_eq_ok.1 hput
    obtain ⟨obj₁, hset', hsame⟩ := hobj.set hset v'
    obtain ⟨b, hputs, hb⟩ := ih hsame htail
    exact ⟨b, .cons hkey (bind_eq_ok.2 ⟨name, hname, hset'⟩) hputs, hb⟩

/-- **Keys that can be put into an object**, one after another: each is the text of a string whose
tag fits, and what it is put under is short. -/
def KeysFit (obj : JSON Double) (keys : List Bytes) : Prop :=
  ∃ obj', Puts obj (keys.map (·, .null)) obj'

/-- What comes of members whose keys can be put: one object, and that is no number. -/
theorem exists_puts_iff {obj : JSON Double} (hobj : SameKeys obj obj)
    {members : List (Bytes × JSON Double)} {keys : List Bytes}
    (hkeys : members.map Prod.fst = keys) :
    ∃ w : JSON Double, (∀ i, w ≠ .integral i) ∧
      ∀ obj', Puts obj members obj' ↔ KeysFit obj keys ∧ obj' = w := by
  have hnulls : (keys.map fun key => (key, (.null : JSON Double))).map Prod.fst = keys := by
    simp [Function.comp_def]
  by_cases hfit : KeysFit obj keys
  · obtain ⟨obj', hputs⟩ := id hfit
    obtain ⟨w, hw, hsame⟩ := hputs.of_sameKeys hobj (hnulls.trans hkeys.symm)
    refine ⟨w, hsame.ne_integral, fun obj' => ⟨fun h => ⟨hfit, h.unique hw⟩, ?_⟩⟩
    rintro ⟨-, rfl⟩
    exact hw
  · refine ⟨.null, fun i h => (nomatch h), fun obj' => iff_of_false (fun h => hfit ?_) fun h =>
      hfit h.1⟩
    obtain ⟨w, hw, -⟩ := h.of_sameKeys hobj (hkeys.trans hnulls.symm)
    exact ⟨w, hw⟩

/-! ## What is read of a document -/

/-- The empty object of the kind that is written. -/
def kindObject (inType : Bool) : JSON Double → JSON Double
  | .fioObject _ _ => if inType then .fioObject [] [] else .object []
  | .flatObject _ _ => if inType then .flatObject [] [] else .object []
  | _ => .object []

theorem isKind_kindText (inType : Bool) (v : JSON Double) :
    IsKind (kindText inType v) (kindObject inType v) := by
  cases v with
  | fioObject keys vals => cases inType with
    | true => exact .fio
    | false => exact .plain
  | flatObject keys vals => cases inType with
    | true => exact .flat
    | false => exact .plain
  | _ => exact .plain

theorem sameKeys_kindObject (inType : Bool) (v : JSON Double) :
    SameKeys (kindObject inType v) (kindObject inType v) := by
  have hfio : SameKeys (.fioObject [] [] : JSON Double) (.fioObject [] []) :=
    @SameKeys.ordered _ false [] [] [] rfl
  have hflat : SameKeys (.flatObject [] [] : JSON Double) (.flatObject [] []) :=
    @SameKeys.ordered _ true [] [] [] rfl
  cases v with
  | fioObject keys vals => cases inType with
    | true => exact hfio
    | false => exact .object
  | flatObject keys vals => cases inType with
    | true => exact hflat
    | false => exact .object
  | _ => exact .object

/-- **What is loaded again** of what is written: a string whose tag fits, an array that
`Array[index++]` counts to the end of, and an object whose keys can be put. -/
def LoadsBack (inType : Bool) : JSON Double → Prop
  | .string s => TagFits s
  | .array list => list.length < uint32Size
  | v => ∀ members, v.objectMembers = some members →
      KeysFit (kindObject inType v) (members.map Prod.fst)

variable (doubles) in
/-- **The two texts of a document are read alike**: under one condition, as one value.  Behind an
object that shows nothing three characters are needed, which `dump` leaves room for. -/
structure ReadAlike (ok : Prop) (v w : JSON Double) (t u : Bytes) : Prop where
  integral : ∀ i, w = .integral i → v = .integral i
  dump : ∃ room, PrintedAs doubles ok room t w ∧
    ∀ n, 0 < n → (room n ↔ ¬ (v.objectMembers = some [] ∧ n < 3))
  vector : PrintedAs doubles ok (fun n => ¬ (n < 3 ∧ EndsEmpty (2 - n) v)) u w

/-- A document that ends in an empty object is one, or its last part ends in one. -/
theorem endsEmpty_iff {n : ℕ} {v : JSON Double} : n < 3 ∧ EndsEmpty (2 - n) v ↔
    (v.objectMembers = some [] ∧ n < 3) ∨
      ∃ u ∈ v.parts.getLast?, 0 + 1 + n < 3 ∧ EndsEmpty (2 - (0 + 1 + n)) u := by
  simp only [← @cramped_zero_iff Double 0 n v, ← @cramped_zero_iff Double (0 + 1)]
  exact cramped_iff

/-! ## Leaves -/

theorem ReadAlike.leaf {ok : Prop} {v w : JSON Double} {t : Bytes} (hv : v.objectMembers = none)
    (hparts : v.parts = []) (hint : ∀ i, w = .integral i → v = .integral i)
    (h : PrintedAs doubles ok (fun _ => True) t w) : ReadAlike doubles ok v w t t where
  integral := hint
  dump := ⟨_, h, fun n _ => by simp [hv]⟩
  vector := h.of_iff Iff.rfl fun n => by
    rw [endsEmpty_iff, hv, hparts]
    simp

/-- A string is read as what it stands for. -/
theorem reads_escaped_iff {s r r' : Bytes} {v : JSON Double} :
    Reads doubles (34 :: (escaped s ++ [34]) ++ r) v r' ↔ stringValue s = .ok v ∧ r' = r := by
  rw [List.cons_append, List.append_assoc, List.singleton_append, reads_quote_iff,
    scanString_escaped s r]
  constructor
  · rintro ⟨val, hval, hv⟩
    cases hval
    exact ⟨hv, rfl⟩
  · rintro ⟨hv, rfl⟩
    exact ⟨s, rfl, hv⟩

theorem printedAs_escaped {s : Bytes} {v : JSON Double} {ok : Prop}
    (hok : ok → stringValue s = .ok v)
    (hread : ∀ w : JSON Double, stringValue s = .ok w → ok) :
    PrintedAs doubles ok (fun _ => True) (34 :: (escaped s ++ [34])) v where
  start := ⟨34, _, rfl, rfl, by decide⟩
  room_of_le _ _ := trivial
  reads_iff r _ w r' := by
    rw [reads_escaped_iff, and_true]
    constructor
    · rintro ⟨hw, rfl⟩
      have hv := hok (hread w hw)
      exact ⟨hread w hw, Except.ok.inj (hw.symm.trans hv), rfl⟩
    · rintro ⟨h, rfl, rfl⟩
      exact ⟨hok h, rfl⟩

theorem stringValue_ne_integral {s : Bytes} {v : JSON Double} (h : stringValue s = .ok v) (i : ℤ) :
    v ≠ .integral i := by
  rintro rfl
  cases stringValue_eq_ok_iff.1 h

theorem LeafText.parts {v : JSON Double} {t : Bytes} (h : LeafText v t) : v.parts = [] := by
  cases h <;> rfl

/-- **A leaf is read alike** where it is loaded back. -/
theorem LeafText.readAlike {inType : Bool} {v : JSON Double} {t : Bytes} (h : LeafText v t)
    (hv : IsCompared v) : ∃ w, ReadAlike doubles (LoadsBack inType v) v w t t := by
  have hword : ∀ (v : JSON Double) (c : UInt8) (w : Bytes), v.objectMembers = none →
      v.parts = [] → LoadsBack inType v → isSpace c = false → c ≠ 93 →
      (∀ r, (∀ i, v = .integral i → EndsNumber r) → Reads doubles (c :: w ++ r) v r) →
      ∃ u, ReadAlike doubles (LoadsBack inType v) v u (c :: w) (c :: w) :=
    fun v c w hv hparts hok hc hne hreads => ⟨v, .leaf hv hparts (fun _ hi => hi)
      (.of_reads hok (fun _ => trivial) hc hne hreads)⟩
  have hnone : ∀ v : JSON Double, v.objectMembers = none →
      ∀ members, v.objectMembers = some members →
        KeysFit (kindObject inType v) (members.map Prod.fst) :=
    fun v hv members h => nomatch hv.symm.trans h
  cases h with
  | null => exact hword .null 110 _ rfl rfl (hnone _ rfl) rfl (by decide) fun r _ => .null rfl
  | boolean b =>
    cases b with
    | true => exact hword _ 116 _ rfl rfl (hnone _ rfl) rfl (by decide) fun r _ => .yes rfl
    | false => exact hword _ 102 _ rfl rfl (hnone _ rfl) rfl (by decide) fun r _ => .no rfl
  | integral i =>
    obtain ⟨hdigits, hvalue⟩ := isDigits_toDecimal i
    obtain ⟨c, w, hw, hc⟩ := hdigits.head
    rw [hw]
    refine hword _ c w rfl rfl (hnone _ rfl) (isSpace_of_number hc) ?_ fun r hr => ?_
    · rintro rfl
      exact absurd hc (by decide)
    · have hread := @IsDigits.reads Double doubles _ _ hdigits (by rw [hvalue]; exact hv.1)
        (by rw [hvalue]; exact hv.2) (hr i rfl)
      rwa [hvalue, hw] at hread
  | string s =>
    by_cases hfits : TagFits s
    · obtain ⟨w, hw⟩ := (@stringValue_ok_iff Double s).2 hfits
      exact ⟨w, .leaf rfl rfl (fun i hi => (stringValue_ne_integral hw i hi).elim)
        (printedAs_escaped (fun _ => hw) fun _ _ => hfits)⟩
    · exact ⟨.null, .leaf rfl rfl (fun _ hi => (nomatch hi))
        (printedAs_escaped (fun h => (hfits h).elim) fun w hw => (stringValue_ok_iff s).1 ⟨w, hw⟩)⟩
  | hash h => exact ⟨.hash h, .leaf rfl rfl (fun _ hi => (nomatch hi))
      (printedAs_escaped (fun _ => stringValue_hash hv) fun _ _ => hnone _ rfl)⟩
  | buffer b => exact ⟨.buffer b, .leaf rfl rfl (fun _ hi => (nomatch hi))
      (printedAs_escaped (fun _ => stringValue_buffer b) fun _ _ => hnone _ rfl)⟩

/-! ## Arrays and objects -/

theorem spaced_comma : Spaced 44 [44] := ⟨[], [], blank_nil, blank_nil, rfl⟩

section Containers

variable {inType : Bool} {text text' : JSON Double → Bytes} {ok : JSON Double → Prop}
  {a sep z : Bytes}

/-- The values and the room of parts that are read alike. -/
theorem exists_vals {parts : List (JSON Double)} {text text' : JSON Double → Bytes}
    (h : ∀ v ∈ parts, ∃ w, ReadAlike doubles (ok v) v w (text v) (text' v)) :
    ∃ (val : JSON Double → JSON Double) (room : JSON Double → ℕ → Prop),
      ∀ v ∈ parts, PrintedAs doubles (ok v) (room v) (text v) (val v) ∧
        PrintedAs doubles (ok v) (fun n => ¬ (n < 3 ∧ EndsEmpty (2 - n) v)) (text' v) (val v) := by
  have : Nonempty (JSON Double) := ⟨.null⟩
  choose! val hval using h
  choose! room hroom using fun v hv => (hval v hv).dump
  exact ⟨val, room, fun v hv => ⟨(hroom v hv).1, (hval v hv).vector⟩⟩

/-- **An array is read alike**, if its elements are. -/
theorem array_readAlike {list : List (JSON Double)} (ha : Blank a) (hsep : Spaced 44 sep)
    (hz : Blank z) (hne : z ≠ [])
    (h : ∀ v ∈ list, ∃ w, ReadAlike doubles (ok v) v w (text v) (text' v)) :
    ∃ w, ReadAlike doubles (list.length < uint32Size ∧ ∀ v ∈ list, ok v) (.array list) w
      (between 91 93 a sep z (list.map text)) (between 91 93 [] [44] [] (list.map text')) := by
  obtain ⟨val, room, hparts⟩ := exists_vals h
  have hdump := PrintedAs.array ha hsep hz fun v hv => (hparts v hv).1
  have hvector := PrintedAs.array blank_nil spaced_comma blank_nil fun v hv => (hparts v hv).2
  refine ⟨.array (list.map val), ⟨fun i hi => (nomatch hi), ⟨_, hdump, fun n hn => ?_⟩, ?_⟩⟩
  · have hz := List.length_pos_iff.2 hne
    refine iff_of_true (fun v hv => ?_) fun h => (nomatch h.1)
    exact (hparts v (List.mem_of_getLast? hv)).1.room_of_le _ (by omega)
  · refine hvector.of_iff Iff.rfl fun n => ?_
    rw [endsEmpty_iff, or_iff_right fun h => (nomatch h.1)]
    exact ⟨fun h v hv hends => h ⟨v, hv, hends⟩, fun h ⟨v, hv, hends⟩ => h v hv hends⟩

/-- **An object is read alike**, if its values are and its keys can be put. -/
theorem object_readAlike {v : JSON Double} {members : List (Bytes × JSON Double)}
    (hv : v.objectMembers = some members) (hne : members ≠ []) (ha : Blank a)
    (hsep : Spaced 44 sep) (hz : Blank z) (hnez : z ≠ [])
    (hkeys : ∀ kv ∈ members, StringText kv.1)
    (h : ∀ kv ∈ members, ∃ w, ReadAlike doubles (ok kv.2) kv.2 w (text kv.2) (text' kv.2)) :
    ∃ w, ReadAlike doubles
      ((∀ kv ∈ members, ok kv.2) ∧ KeysFit (kindObject inType v) (members.map Prod.fst)) v w
      (between 123 125 (kindText inType v ++ a) sep z
        (members.map fun kv => member kv.1 (ascii " : ") (text kv.2)))
      (between 123 125 (kindText inType v) [44] []
        (members.map fun kv => member kv.1 [58] (text' kv.2))) := by
  obtain ⟨val, room, hparts⟩ := exists_vals (List.forall_mem_map.2 h)
  have hparts := List.forall_mem_map.1 hparts
  -- The keys can be put with the values that are read just if they can be put at all.
  obtain ⟨w, hint, hputs⟩ : ∃ w : JSON Double, (∀ i, w ≠ .integral i) ∧
      ∀ obj', Puts (kindObject inType v) (members.map fun kv => (kv.1, val kv.2)) obj' ↔
        KeysFit (kindObject inType v) (members.map Prod.fst) ∧ obj' = w :=
    exists_puts_iff (sameKeys_kindObject inType v) (by simp)
  have hdump := PrintedAs.object (isKind_kindText inType v) ha
    ⟨[32], [32], forall_mem_of_all (by decide), forall_mem_of_all (by decide), rfl⟩ hsep hz hkeys
    (fun kv hkv => (hparts kv hkv).1) hputs
  have hvector := @PrintedAs.object Double doubles text' val ok
    (fun u n => ¬ (n < 3 ∧ EndsEmpty (2 - n) u)) [] [58] [44] [] _ _ w _ members
    (isKind_kindText inType v) blank_nil ⟨[], [], blank_nil, blank_nil, rfl⟩ spaced_comma blank_nil
    hkeys (fun kv hkv => (hparts kv hkv).2) hputs
  rw [List.append_nil] at hvector
  refine ⟨w, ⟨fun i hi => (hint i hi).elim, ⟨_, hdump, fun n hn => ?_⟩, ?_⟩⟩
  · have hz := List.length_pos_iff.2 hnez
    refine iff_of_true ⟨fun hnil => (hne hnil).elim, fun kv hkv => ?_⟩ fun h => ?_
    · exact (hparts kv (List.mem_of_getLast? hkv)).1.room_of_le _ (by omega)
    · exact hne (Option.some.inj (hv.symm.trans h.1))
  · refine hvector.of_iff Iff.rfl fun n => ?_
    have hfull : v.objectMembers ≠ some [] := fun h => hne (Option.some.inj (hv.symm.trans h))
    rw [endsEmpty_iff, parts_of_objectMembers hv, List.getLast?_map,
      and_iff_right fun hnil => (hne hnil).elim, or_iff_right fun h => hfull h.1]
    constructor
    · intro h kv hkv hends
      exact h ⟨kv.2, Option.mem_map_of_mem _ hkv, hends⟩
    · rintro h ⟨u, hu, hends⟩
      obtain ⟨kv, hkv, rfl⟩ := Option.mem_map.1 hu
      exact h kv hkv hends

/-- **An object that shows nothing is read alike** if no kind is written of it. -/
theorem empty_readAlike {ok : Prop} (hok : ok) {v : JSON Double} (hv : v.objectMembers = some []) :
    ReadAlike doubles ok v (.object []) [123, 125] [123, 125] := by
  have hempty := @PrintedAs.object Double doubles (fun _ => []) id (fun _ => ok)
    (fun _ _ => True) [] [58] [44] [] [] (.object []) (.object []) ok [] .plain blank_nil
    ⟨[], [], blank_nil, blank_nil, rfl⟩ spaced_comma blank_nil (List.forall_mem_nil _)
    (List.forall_mem_nil _) fun obj' => puts_nil_iff.trans (and_iff_right hok).symm
  have hiff : ok ↔ (∀ kv ∈ ([] : List (Bytes × JSON Double)), ok) ∧ ok := by simp
  refine ⟨fun i hi => (nomatch hi), ⟨_, hempty.of_iff hiff fun n => Iff.rfl, fun n _ => ?_⟩,
    hempty.of_iff hiff fun n => ?_⟩
  · simp [hv]
  · rw [endsEmpty_iff, parts_of_objectMembers hv]
    simp [hv]

end Containers

/-- What is loaded back at every node of an array. -/
theorem shownThroughout_array {inType : Bool} {list : List (JSON Double)} :
    ShownThroughout (LoadsBack inType) (.array list) ↔
      list.length < uint32Size ∧ ∀ v ∈ list, ShownThroughout (LoadsBack inType) v :=
  shownThroughout_iff

/-- What is loaded back at every node of an object. -/
theorem shownThroughout_loadsBack {inType : Bool} {v : JSON Double}
    {members : List (Bytes × JSON Double)} (hv : v.objectMembers = some members) :
    ShownThroughout (LoadsBack inType) v ↔
      (∀ kv ∈ members, ShownThroughout (LoadsBack inType) kv.2) ∧
        KeysFit (kindObject inType v) (members.map Prod.fst) := by
  have hnode : LoadsBack inType v ↔ KeysFit (kindObject inType v) (members.map Prod.fst) := by
    cases v with
    | object | fioObject | flatObject =>
      cases hv
      exact ⟨fun h => h _ rfl, fun h members hmembers => by cases hmembers; exact h⟩
    | _ => cases hv
  rw [shownThroughout_iff, parts_of_objectMembers hv, List.forall_mem_map, hnode, and_comm]

/-- **The two texts of a document are read alike** where no kind is lost, under keys that are the
texts of strings. -/
theorem Along.readAlike {inType : Bool} {v : JSON Double} {t u : Bytes} (h : Along inType v t u)
    (hcompared : ShownThroughout IsCompared v)
    (halike : ShownThroughout (WrittenAlike StringText inType) v) :
    ∃ w, ReadAlike doubles (ShownThroughout (LoadsBack inType) v) v w t u := by
  induction h with
  | leaf h =>
    rw [shownThroughout_iff, h.parts, and_iff_left (List.forall_mem_nil _)]
    exact h.readAlike (shownThroughout_iff.1 hcompared).1
  | array ha hsep hz hclosing h ih =>
    rw [shownThroughout_array]
    exact array_readAlike ha hsep hz hclosing fun v hv =>
      ih v hv ((shownThroughout_iff.1 hcompared).2 v hv) ((shownThroughout_iff.1 halike).2 v hv)
  | @empty v hv =>
    have hkind := ((shownThroughout_object hv).1 halike).1 rfl
    rw [shownThroughout_loadsBack hv, hkind]
    exact ⟨_, empty_readAlike ⟨List.forall_mem_nil _, _, .nil⟩ hv⟩
  | @object v members text text' a sep z hv hne ha hsep hz hclosing h ih =>
    have hparts := ((shownThroughout_object hv).1 halike).2
    have hvals := (shownThroughout_iff.1 hcompared).2
    rw [parts_of_objectMembers hv, List.forall_mem_map] at hvals
    rw [shownThroughout_loadsBack hv]
    exact object_readAlike hv hne ha hsep hz hclosing (fun kv hkv => (hparts kv hkv).1)
      fun kv hkv => ih kv hkv (hvals kv hkv) (hparts kv hkv).2

/-! ## The two printers -/

section Printers

variable (doubles) (inType : Bool) (depth : ℕ) (v : JSON Double)

/-- The two texts of a document come to the same without the blanks outside of their strings. -/
def DifferInBlanks : Prop :=
  ∃ t u, dump doubles (ascii "  ") inType depth v = .ok t ∧ dumpVector doubles inType v = .ok u ∧
    squeeze .plain t = squeeze .plain u

/-- **The two printers agree** on a document: its texts differ only in blanks outside of their
strings, and the same value is loaded from both, whatever is in the memory behind the bytes. -/
def PrintersAgree : Prop :=
  ∃ t u w, dump doubles (ascii "  ") inType depth v = .ok t ∧
    dumpVector doubles inType v = .ok u ∧ squeeze .plain t = squeeze .plain u ∧
    load doubles t = .ok (w, .success) ∧
    ∀ after, loadBytes doubles (u ++ after) u.length = .ok (w, .success)

end Printers

theorem writtenAlike_of_stringText {inType : Bool} {v : JSON Double}
    (h : ShownThroughout (WrittenAlike StringText inType) v) :
    ShownThroughout (WrittenAlike EndsQuoted inType) v := fun w hw members hmembers =>
  ⟨fun kv hkv => ((h w hw members hmembers).1 kv hkv).after, (h w hw members hmembers).2⟩

/-- The keys that are shown are of a kind. -/
def KeysAre (IsKey : Bytes → Prop) (v : JSON Double) : Prop :=
  ∀ members, v.objectMembers = some members → ∀ kv ∈ members, IsKey kv.1

theorem writtenAlike_of_keysAre {inType : Bool} {v : JSON Double}
    (hkeys : ShownThroughout (KeysAre StringText) v)
    (h : ShownThroughout (WrittenAlike EndsQuoted inType) v) :
    ShownThroughout (WrittenAlike StringText inType) v := fun w hw members hmembers =>
  ⟨hkeys w hw members hmembers, (h w hw members hmembers).2⟩

/-- What is loaded of two texts that are read alike: the value, where it is loaded back and does not
end in an empty object. -/
theorem ReadAlike.loaded_iff {ok : Prop} {v w : JSON Double} {t u : Bytes}
    (h : ReadAlike doubles ok v w t u) (hroot : ∀ i, v ≠ .integral i) :
    (∃ w, load doubles t = .ok (w, .success) ∧
      ∀ after, loadBytes doubles (u ++ after) u.length = .ok (w, .success)) ↔
    ok ∧ ¬ EndsEmpty 2 v := by
  obtain ⟨room, hdump, hroom⟩ := h.dump
  have hroot : ∀ i, w ≠ .integral i := fun i hi => hroot i (h.integral i hi)
  constructor
  · rintro ⟨w', hload, hbytes⟩
    obtain ⟨⟨hok, hends⟩, -⟩ := (h.vector.loadBytes_iff hroot [] w').1 (hbytes [])
    exact ⟨hok, fun hempty => hends ⟨by simp, hempty⟩⟩
  · rintro ⟨hok, hends⟩
    refine ⟨w, (hdump.load_iff hroot w).2 ⟨⟨hok, ?_⟩, rfl⟩, fun after => ?_⟩
    · exact (hroom 1 Nat.one_pos).2 fun h => hends (.empty h.1)
    · refine (h.vector.loadBytes_iff hroot after w).2 ⟨⟨hok, fun h => hends ?_⟩, rfl⟩
      exact h.2.mono (Nat.sub_le 2 _)

/-- **The texts differ just in blanks** where the shown strings are shorter than 4 GiB, every shown
key ends inside of its quotation marks, and no object loses its kind. -/
theorem differInBlanks_iff {inType : Bool} {depth : ℕ} {v : JSON Double}
    (hcompared : ShownThroughout IsCompared v) :
    DifferInBlanks doubles inType depth v ↔
      ShownThroughout ShortString v ∧ ShownThroughout (WrittenAlike EndsQuoted inType) v := by
  have htab : Blank (ascii "  ") := forall_mem_of_all (by decide)
  constructor
  · rintro ⟨t, u, ht, hu, hsqueeze⟩
    have halong := along_of_printed doubles htab hcompared ht hu
    exact ⟨(dump_ok_iff ..).1 ⟨t, ht⟩, halong.agreesIff.squeeze_eq_iff.1 hsqueeze⟩
  · rintro ⟨hshort, halike⟩
    obtain ⟨t, ht⟩ := (dump_ok_iff doubles (ascii "  ") inType depth v).2 hshort
    obtain ⟨u, hu⟩ := (dumpVector_ok_iff doubles inType v).2 hshort
    have halong := along_of_printed doubles htab hcompared ht hu
    exact ⟨t, u, ht, hu, halong.agreesIff.squeeze_eq_iff.2 halike⟩

/-- **The two printers agree** on an array or an object whose shown keys are the texts of strings
just if its shown strings are shorter than 4 GiB, it shows no ordered object with its kind and
nothing in it, everything shown is loaded back, and it does not end in an empty object; and whatever
the keys are, the texts differ just in blanks exactly where each key comes back to its quotation
marks. -/
theorem printers_agree (doubles : Doubles Double) (inType : Bool) (depth : ℕ) {v : JSON Double}
    (hroot : (∃ members, v.objectMembers = some members) ∨ ∃ list, v = .array list)
    (hcompared : ShownThroughout IsCompared v) :
    (ShownThroughout (KeysAre StringText) v →
      (PrintersAgree doubles inType depth v ↔
        ShownThroughout ShortString v ∧ ShownThroughout (WrittenAlike StringText inType) v ∧
          ShownThroughout (LoadsBack inType) v ∧ ¬ EndsEmpty 2 v)) ∧
    (DifferInBlanks doubles inType depth v ↔
      ShownThroughout ShortString v ∧ ShownThroughout (WrittenAlike EndsQuoted inType) v) := by
  have htab : Blank (ascii "  ") := forall_mem_of_all (by decide)
  have hroot : ∀ i, v ≠ .integral i := by
    rintro i rfl
    rcases hroot with ⟨members, h⟩ | ⟨list, h⟩
    · cases h
    · cases h
  have hblanks := @differInBlanks_iff Double doubles inType depth v hcompared
  refine ⟨fun hkeys => ⟨?_, ?_⟩, hblanks⟩
  · rintro ⟨t, u, w, ht, hu, hsqueeze, hload, hbytes⟩
    obtain ⟨hshort, hends⟩ := hblanks.1 ⟨t, u, ht, hu, hsqueeze⟩
    have halike := writtenAlike_of_keysAre hkeys hends
    obtain ⟨w', hread⟩ :=
      @Along.readAlike Double doubles _ _ _ _ (along_of_printed doubles htab hcompared ht hu)
        hcompared halike
    exact ⟨hshort, halike, (hread.loaded_iff hroot).1 ⟨w, hload, hbytes⟩⟩
  · rintro ⟨hshort, halike, hback⟩
    obtain ⟨t, u, ht, hu, hsqueeze⟩ := hblanks.2 ⟨hshort, writtenAlike_of_stringText halike⟩
    obtain ⟨w', hread⟩ :=
      @Along.readAlike Double doubles _ _ _ _ (along_of_printed doubles htab hcompared ht hu)
        hcompared halike
    obtain ⟨w, hload, hbytes⟩ := (hread.loaded_iff hroot).2 hback
    exact ⟨t, u, w, ht, hu, hsqueeze, hload, hbytes⟩

/-- An ordered object of a number and an object. -/
theorem printers_agree_plain :
    PrintersAgree plainDoubles true 1 (.fioObject []
      [([48, 45, 107], .integral 1), ([49, 45, 111], .object [([97], .string [98])])]) := by
  have hshown : ∀ P : JSON Unit → Prop, P (.fioObject []
        [([48, 45, 107], .integral 1), ([49, 45, 111], .object [([97], .string [98])])]) →
      P (.integral 1) → P (.object [([97], .string [98])]) → P (.string [98]) →
      ShownThroughout P (.fioObject []
        [([48, 45, 107], .integral 1), ([49, 45, 111], .object [([97], .string [98])])]) := by
    intro P hroot hnumber hobject hstring
    have hnumber := shownThroughout_iff.2 ⟨hnumber, List.forall_mem_nil _⟩
    have hstring := shownThroughout_iff.2 ⟨hstring, List.forall_mem_nil _⟩
    have hobject := shownThroughout_iff.2 ⟨hobject, List.forall_mem_singleton.2 hstring⟩
    exact shownThroughout_iff.2 ⟨hroot,
      List.forall_mem_cons.2 ⟨hnumber, List.forall_mem_singleton.2 hobject⟩⟩
  have hkey : ∀ c : UInt8, c ≠ 34 → c ≠ 92 → c ≠ 36 →
      ReadsKey [c] (.string [c] : JSON Unit) := by
    refine fun c hquote hescape hdollar => ⟨[c], .char hquote hescape .close, .plain ?_ ?_⟩
    · rintro ⟨t, ht⟩
      exact hdollar (List.cons.inj ht).1.symm
    · rintro ⟨t, ht⟩
      exact hdollar (List.cons.inj ht).1.symm
  -- Neither the number nor the string shows members.
  have hnone : ∀ {P : List (Bytes × JSON Unit) → Prop} {v : JSON Unit}, v.objectMembers = none →
      ∀ members, v.objectMembers = some members → P members :=
    fun hv members h => nomatch hv.symm.trans h
  have hk : StringText [107] := ⟨by decide, by decide⟩
  have ho : StringText [111] := ⟨by decide, by decide⟩
  have ha : StringText [97] := ⟨by decide, by decide⟩
  refine ((printers_agree plainDoubles true 1 (.inl ⟨_, rfl⟩)
    (hshown _ trivial ⟨by decide, by decide⟩ trivial trivial)).1
      (hshown _ ?_ (hnone rfl) ?_ (hnone rfl))).2
      ⟨hshown _ trivial trivial trivial (by simp [ShortString, uint32Size]),
        hshown _ ?_ (hnone rfl) ?_ (hnone rfl), hshown _ ?_ (hnone rfl) ?_ ?_, ?_⟩
  · rintro members ⟨⟩
    exact List.forall_mem_cons.2 ⟨hk, List.forall_mem_singleton.2 ho⟩
  · rintro members ⟨⟩
    exact List.forall_mem_singleton.2 ha
  · rintro members ⟨⟩
    exact ⟨List.forall_mem_cons.2 ⟨hk, List.forall_mem_singleton.2 ho⟩,
      fun h => (List.cons_ne_nil _ _ h).elim⟩
  · rintro members ⟨⟩
    exact ⟨List.forall_mem_singleton.2 ha, fun h => (List.cons_ne_nil _ _ h).elim⟩
  · rintro members ⟨⟩
    exact ⟨_, .cons (hkey 107 (by decide) (by decide) (by decide)) rfl
      (.cons (hkey 111 (by decide) (by decide) (by decide)) rfl .nil)⟩
  · rintro members ⟨⟩
    exact ⟨_, .cons (hkey 97 (by decide) (by decide) (by decide)) rfl .nil⟩
  · exact (@stringValue_ok_iff Unit [98]).1 ⟨.string [98], rfl⟩
  · rintro (⟨hv⟩ | ⟨hu, h⟩)
    · cases hv
    · cases hu
      rcases h with ⟨hv⟩ | ⟨hu, h⟩
      · cases hv
      · cases hu
        rcases h with ⟨hv⟩ | ⟨hu, -⟩
        cases hv

/-- A key that leaves its quotation marks and comes back: the parser drops the character behind an
`e`, here a quotation mark, and the blanks of one text are in what it takes for the next key. -/
example : DifferInBlanks plainDoubles false 1
      (.object [([34, 58, 49, 101, 34, 49, 44], .null), ([58, 49, 125], .null)]) ∧
    ¬ PrintersAgree plainDoubles false 1
      (.object [([34, 58, 49, 101, 34, 49, 44], .null), ([58, 49, 125], .null)]) := by
  refine ⟨⟨_, _, rfl, rfl, by decide⟩, ?_⟩
  rintro ⟨t, u, w, ht, hu, -, hload, hbytes⟩
  cases ht
  cases hu
  have hdump : (.ok (w, .success) : Except Fault (JSON Unit × CrustStatus)) =
    .ok (.object [([], .floating ()), (ascii " : null,\\n  ", .integral 1)], .success) := hload.symm
  have hvector : (.ok (w, .success) : Except Fault (JSON Unit × CrustStatus)) =
    .ok (.object [([], .floating ()), (ascii ":null,", .integral 1)], .success) := (hbytes [0]).symm
  cases hdump.symm.trans hvector

/-- An ordered object with nothing in it: one printer writes its kind, the other does not. -/
theorem not_printers_agree : ¬ ∀ (inType : Bool) (depth : ℕ) (v : JSON Unit),
    ((∃ members, v.objectMembers = some members) ∨ ∃ list, v = .array list) →
      ShownThroughout IsCompared v → PrintersAgree plainDoubles inType depth v := by
  intro h
  have hcompared : ShownThroughout IsCompared (.fioObject [] [] : JSON Unit) :=
    shownThroughout_iff.2 ⟨trivial, List.forall_mem_nil _⟩
  obtain ⟨t, u, w, ht, hu, hsqueeze, -⟩ := h true 1 (.fioObject [] []) (.inl ⟨[], rfl⟩) hcompared
  cases ht
  cases hu
  exact absurd hsqueeze (by decide)

end Dcap.JSON
