import AttestationChain.Dcap.Json.Printed
import AttestationChain.Dcap.Json.Sizes

/-!
# Dcap/Json/Reread — reading back what was printed

What a printer makes of a regular document is read as that document, if its keys are short and
enough stands behind the empty objects in it, and is not read at all otherwise
(`IsPrinter.printedAs`).  So a document that was read is printed and read again unless `json_escape`
would not get to the end of one of its strings, or of one of its keys, or the document ends in an
empty object that is closed at once (`rereads_iff`).
-/

namespace Dcap.JSON

variable {Double : Type} {doubles : Doubles Double}

/-! ## Strings and keys -/

theorem stringValue_own {s : Bytes} (hs : ¬ Tagged s) :
    (stringValue s : Except Fault (JSON Double)) = .ok (.string s) := by
  rcases @stringValue_cases Double s with ⟨hhash, heven, -⟩ | ⟨hbuff, -⟩ | ⟨-, h⟩
  · exact (hs (.inl ⟨hhash, heven⟩)).elim
  · exact (hs (.inr hbuff)).elim
  · exact h

/-- A string that stands for itself is read as itself. -/
theorem reads_escaped {s : Bytes} (hs : ¬ Tagged s) (r : Bytes) :
    Reads doubles (34 :: (escaped s ++ 34 :: r)) (.string s) r := by
  exact .string rfl (scanString_escaped s r) (stringValue_own hs)

/-- A string of plain characters is read as what it stands for. -/
theorem reads_plain {s : Bytes} {v : JSON Double} (hs : ∀ c ∈ s, PlainByte c)
    (hv : stringValue s = .ok v) (r : Bytes) : Reads doubles (34 :: (s ++ [34]) ++ r) v r := by
  rw [List.cons_append, List.append_assoc, List.singleton_append]
  refine .string rfl ?_ hv
  have hscan := scanString_escaped s r
  rwa [escaped_plain hs] at hscan

theorem stringValue_hash {h : Bytes} (hlen : h.length = 32) :
    (stringValue (hashTag ++ hexstring h) : Except Fault (JSON Double)) = .ok (.hash h) := by
  rw [stringValue, if_pos (List.prefix_append _ _), List.drop_left, hexstringToBytes_hexstring]
  change (if h.length < 32 then _ else _) = _
  rw [if_neg (by omega), List.take_of_length_le (by omega)]

theorem stringValue_buffer (b : Bytes) :
    (stringValue (buffTag ++ hexstring b) : Except Fault (JSON Double)) = .ok (.buffer b) := by
  have hhash : ¬ hashTag <+: buffTag ++ hexstring b := fun h =>
    not_buffTag h (List.prefix_append _ _)
  rw [stringValue, if_neg hhash, if_pos (List.prefix_append _ _), List.drop_left,
    hexstringToBytes_hexstring]

/-- The name of a string that stands for itself is read as that string. -/
theorem readsKey_own {s : Bytes} (hs : ¬ Tagged s) {key : JSON Double} :
    ReadsKey (escaped s) key ↔ key = .string s := by
  have hread : ReadsKey (escaped s) (.string s : JSON Double) :=
    ⟨s, scanString_eq_ok_iff.1 (scanString_escaped s []),
      stringValue_eq_ok_iff.1 (stringValue_own hs)⟩
  constructor
  · exact fun h => h.unique hread
  · rintro rfl
    exact hread

/-- A value goes behind those that are there, if its key is short. -/
theorem putMember_string {s : Bytes} {acc : List (Bytes × JSON Double)}
    (hacc : ∀ kv ∈ acc, kv.1 < escaped s) (v obj : JSON Double) :
    putMember (.string s) (.object acc) v = .ok obj ↔
      ShortName (escaped s) ∧ obj = .object (acc ++ [(escaped s, v)]) := by
  rw [putMember, toString, jsonEscape, shortName_escaped, ← mapSet_of_lt hacc]
  split_ifs with hs
  · exact ⟨fun h => ⟨hs, (Except.ok.inj h).symm⟩, fun h => h.2 ▸ rfl⟩
  · exact iff_of_false (fun h => by cases h) fun h => hs h.1

/-- **Members are put as they are**, behind those before them, if each key is short. -/
theorem puts_own : ∀ {map acc : List (Bytes × JSON Double)} {obj : JSON Double},
    Sorted (acc ++ map) → (∀ kv ∈ map, OwnName kv.1) →
      (Puts (.object acc) map obj ↔
        (∀ kv ∈ map, ShortName kv.1) ∧ obj = .object (acc ++ map))
  | [], acc, obj, _, _ => by
    rw [puts_nil_iff, List.append_nil, and_iff_right (List.forall_mem_nil _)]
  | (name, v) :: map, acc, obj, hsorted, hnames => by
    have hacc := List.pairwise_append.1 hsorted
    obtain ⟨⟨s, rfl, hs⟩, hmap⟩ := List.forall_mem_cons.1 hnames
    have hrest := @puts_own map (acc ++ [(escaped s, v)]) obj
      (by rwa [List.append_assoc]) hmap
    have hput := @putMember_string Double s acc
      (fun kv hkv => hacc.2.2 kv hkv (escaped s, v) List.mem_cons_self) v
    rw [List.append_assoc, List.singleton_append] at hrest
    rw [puts_cons_iff, List.forall_mem_cons]
    constructor
    · rintro ⟨key, obj₁, hkey, hobj₁, hputs⟩
      obtain rfl := (readsKey_own hs).1 hkey
      obtain ⟨hshort, rfl⟩ := (hput _).1 hobj₁
      obtain ⟨hall, hobj⟩ := hrest.1 hputs
      exact ⟨⟨hshort, hall⟩, hobj⟩
    · rintro ⟨⟨hshort, hall⟩, hobj⟩
      exact ⟨_, _, (readsKey_own hs).2 rfl, (hput _).2 ⟨hshort, rfl⟩, hrest.2 ⟨hall, hobj⟩⟩

/-! ## Documents -/

section Cramped

/-- **An empty object with fewer than three characters behind it** ends a document that has `n`
behind it. -/
inductive Cramped (closing : ℕ → ℕ) : ℕ → ℕ → JSON Double → Prop
  | empty {depth n v} (hv : v.objectMembers = some []) (hn : n < 3) : Cramped closing depth n v
  | last {depth n v u} (hu : u ∈ v.parts.getLast?)
      (h : Cramped closing (depth + 1) (closing depth + 1 + n) u) : Cramped closing depth n v

variable {closing : ℕ → ℕ}

theorem cramped_iff {depth n : ℕ} {v : JSON Double} : Cramped closing depth n v ↔
    (v.objectMembers = some [] ∧ n < 3) ∨
      ∃ u ∈ v.parts.getLast?, Cramped closing (depth + 1) (closing depth + 1 + n) u := by
  constructor
  · intro h
    cases h with
    | empty hv hn => exact .inl ⟨hv, hn⟩
    | last hu h => exact .inr ⟨_, hu, h⟩
  · rintro (⟨hv, hn⟩ | ⟨u, hu, h⟩)
    · exact .empty hv hn
    · exact .last hu h

theorem not_cramped_of_leaf {v : JSON Double} (hv : v.objectMembers = none) (hparts : v.parts = [])
    (depth n : ℕ) : ¬ Cramped closing depth n v := by
  rw [cramped_iff, hv, hparts]
  rintro (⟨h, -⟩ | ⟨u, h, -⟩)
  · cases h
  · cases h

theorem cramped_array {depth n : ℕ} {list : List (JSON Double)} :
    Cramped closing depth n (.array list) ↔
      ∃ u ∈ list.getLast?, Cramped closing (depth + 1) (closing depth + 1 + n) u := by
  rw [cramped_iff, or_iff_right fun h => by cases h.1]
  rfl

theorem cramped_object {depth n : ℕ} {map : List (Bytes × JSON Double)} :
    Cramped closing depth n (.object map) ↔ (map = [] ∧ n < 3) ∨
      ∃ kv ∈ map.getLast?, Cramped closing (depth + 1) (closing depth + 1 + n) kv.2 := by
  rw [cramped_iff, objectMembers, Option.some_inj, parts, List.getLast?_map]
  refine or_congr_right ⟨?_, ?_⟩
  · rintro ⟨u, hu, h⟩
    obtain ⟨kv, hkv, rfl⟩ := Option.mem_map.1 hu
    exact ⟨kv, hkv, h⟩
  · rintro ⟨kv, hkv, h⟩
    exact ⟨kv.2, Option.mem_map_of_mem _ hkv, h⟩

theorem Cramped.lt {depth n : ℕ} {v : JSON Double} (h : Cramped closing depth n v) : n < 3 := by
  induction h with
  | empty _ hn => exact hn
  | last _ _ ih => omega

/-- Where there are blanks before each bracket that closes, only the document itself may be too
close to the end. -/
theorem Cramped.empty_of_pos (hpos : ∀ depth, 0 < closing depth) {depth n : ℕ} (hn : 0 < n)
    {v : JSON Double} (h : Cramped closing depth n v) : v.objectMembers = some [] := by
  cases h with
  | empty hv _ => exact hv
  | last _ h =>
    have := h.lt
    have := hpos depth
    omega

/-- Without blanks, each level has one character more behind it. -/
theorem cramped_zero_iff {depth n : ℕ} {v : JSON Double} :
    Cramped (fun _ => 0) depth n v ↔ n < 3 ∧ EndsEmpty (2 - n) v := by
  constructor
  · intro h
    induction h with
    | empty hv hn => exact ⟨hn, .empty hv⟩
    | @last depth n v u hu h ih =>
      obtain ⟨hn, hu'⟩ := ih
      have hlevel : 2 - n = 2 - (0 + 1 + n) + 1 := by omega
      refine ⟨by omega, ?_⟩
      rw [hlevel]
      exact .last hu hu'
  · rintro ⟨hn, h⟩
    generalize hm : 2 - n = m at h
    induction h generalizing depth n with
    | empty hv => exact .empty hv hn
    | last hu _ ih => exact .last hu (ih (by omega) (by omega))

end Cramped

section Printed

variable {closing : ℕ → ℕ} {print : ℕ → JSON Double → Except Fault Bytes}

/-- A value without parts has room enough, whatever is behind it. -/
theorem printedAs_leaf {depth : ℕ} {v : JSON Double} {c : UInt8} {t : Bytes}
    (hv : v.objectMembers = none) (hparts : v.parts = []) (hchildren : v.children = [])
    (hkeys : ShortKeys v) (hspace : isSpace c = false) (hc : c ≠ 93)
    (hread : ∀ r, (∀ i, v = .integral i → EndsNumber r) → Reads doubles (c :: t ++ r) v r) :
    PrintedAs doubles (Throughout ShortKeys v) (fun n => ¬ Cramped closing depth n v) (c :: t) v :=
  .of_reads (throughout_iff.2 ⟨hkeys, by simp [hchildren]⟩) (not_cramped_of_leaf hv hparts depth)
    hspace hc hread

theorem IsPrinter.printedAs_integral (h : IsPrinter closing print) {depth : ℕ} {i : ℤ} {t : Bytes}
    (hlo : -2 ^ 63 ≤ i) (hhi : i < 2 ^ 63) (ht : print depth (.integral i) = .ok t) :
    PrintedAs doubles (Throughout ShortKeys (.integral i : JSON Double))
      (fun n => ¬ Cramped closing depth n (.integral i : JSON Double)) t (.integral i) := by
  obtain ⟨hdigits, hvalue⟩ := isDigits_toDecimal i
  obtain ⟨c, w, hw, hc⟩ := hdigits.head
  rw [h.integral, hw] at ht
  cases ht
  refine printedAs_leaf rfl rfl rfl trivial (isSpace_of_number hc) ?_ fun r hr => ?_
  · rintro rfl
    exact absurd hc (by decide)
  · have hread := @IsDigits.reads Double doubles _ _ hdigits (by rwa [hvalue]) (by rwa [hvalue])
      (hr i rfl)
    rwa [hvalue, hw] at hread

theorem IsPrinter.printedAs_array (h : IsPrinter closing print) {text : JSON Double → Bytes}
    {depth : ℕ} {list : List (JSON Double)} {t : Bytes}
    (htext : ∀ v t, print (depth + 1) v = .ok t → text v = t) (hlist : list.length < uint32Size)
    (hvs : ∀ v ∈ list, print (depth + 1) v = .ok (text v) →
      PrintedAs doubles (Throughout ShortKeys v) (fun n => ¬ Cramped closing (depth + 1) n v)
        (text v) v) (ht : print depth (.array list) = .ok t) :
    PrintedAs doubles (Throughout ShortKeys (.array list))
      (fun n => ¬ Cramped closing depth n (.array list)) t (.array list) := by
  obtain ⟨a, sep, z, ha, hsep, hz, hclosing, hprint⟩ := h.array depth list
  rw [hprint] at ht
  obtain ⟨texts, hparts, ht⟩ := bind_eq_ok.1 ht
  cases ht
  obtain ⟨rfl, hok⟩ := mapM_ok_texts hparts htext
  have hprinted := @PrintedAs.array Double doubles text id (Throughout ShortKeys)
    (fun u n => ¬ Cramped closing (depth + 1) n u) a sep z ha hsep hz list
    fun u hu => hvs u hu (hok u hu)
  rw [List.map_id] at hprinted
  refine hprinted.of_iff ?_ fun n => ?_
  · rw [throughout_iff]
    exact ⟨fun h => ⟨hlist, h.2⟩, fun h => ⟨trivial, h.2⟩⟩
  · rw [cramped_array, hclosing]
    refine ⟨fun h u hu hc => h ⟨u, hu, hc⟩, ?_⟩
    rintro h ⟨u, hu, hc⟩
    exact h u hu hc

theorem IsPrinter.printedAs_object (h : IsPrinter closing print) {text : JSON Double → Bytes}
    {depth : ℕ} {map : List (Bytes × JSON Double)} {t : Bytes}
    (htext : ∀ v t, print (depth + 1) v = .ok t → text v = t) (hsorted : Sorted map)
    (hnames : ∀ kv ∈ map, OwnName kv.1)
    (hvs : ∀ kv ∈ map, print (depth + 1) kv.2 = .ok (text kv.2) →
      PrintedAs doubles (Throughout ShortKeys kv.2)
        (fun n => ¬ Cramped closing (depth + 1) n kv.2) (text kv.2) kv.2)
    (ht : print depth (.object map) = .ok t) :
    PrintedAs doubles (Throughout ShortKeys (.object map))
      (fun n => ¬ Cramped closing depth n (.object map)) t (.object map) := by
  obtain ⟨a, colon, sep, z, ha, hcolon, hsep, hz, hclosing, hprint⟩ := h.object depth map
  rw [hprint] at ht
  obtain ⟨texts, hparts, ht⟩ := bind_eq_ok.1 ht
  cases ht
  obtain ⟨rfl, hok⟩ := members_texts hparts htext
  have hkeys : ∀ kv ∈ map, StringText kv.1 := fun kv hkv => by
    obtain ⟨x, hx, -⟩ := hnames kv hkv
    exact hx ▸ stringText_escaped x
  have hprinted := @PrintedAs.object Double doubles text id (Throughout ShortKeys)
    (fun u n => ¬ Cramped closing (depth + 1) n u) a colon sep z [] (.object []) (.object map)
    (∀ kv ∈ map, ShortName kv.1) map .plain ha hcolon hsep hz hkeys
    (fun kv hkv => hvs kv hkv (hok kv hkv)) fun obj => by
      rw [show map.map (fun kv => (kv.1, id kv.2)) = map from List.map_id map]
      exact puts_own hsorted hnames
  refine hprinted.of_iff ?_ fun n => ?_
  · rw [throughout_iff, children, List.forall_mem_map]
    exact ⟨fun h => ⟨h.2, h.1⟩, fun h => ⟨h.2, h.1⟩⟩
  · rw [cramped_object, not_or, not_exists]
    split_ifs at hclosing with hmap
    · obtain ⟨rfl, rfl⟩ := hclosing
      subst hmap
      simp
    · simp [hmap, hclosing]

/-- **What is printed of a regular document** is read as that document if its keys are short and no
empty object in it is cramped, and is not read otherwise. -/
theorem IsPrinter.printedAs (h : IsPrinter closing print) {v : JSON Double}
    (hsimple : Throughout IsSimple v) (hregular : Regular v) : ∀ {depth t}, print depth v = .ok t →
      PrintedAs doubles (Throughout ShortKeys v) (fun n => ¬ Cramped closing depth n v) t v := by
  induction v using childrenInduction with
  | h v ih =>
  intro depth t ht
  rw [throughout_iff] at hsimple
  obtain ⟨text, htext⟩ := exists_text (print (depth + 1))
  cases hregular with
  | null =>
    rw [h.null] at ht
    cases ht
    exact printedAs_leaf rfl rfl rfl trivial rfl (by decide) fun r _ => .null rfl
  | @boolean b =>
    rw [h.boolean] at ht
    cases ht
    cases b with
    | true => exact printedAs_leaf rfl rfl rfl trivial rfl (by decide) fun r _ => .yes rfl
    | false => exact printedAs_leaf rfl rfl rfl trivial rfl (by decide) fun r _ => .no rfl
  | integral hlo hhi => exact h.printedAs_integral hlo hhi ht
  | @string s hs =>
    rw [h.string, jsonEscape] at ht
    split_ifs at ht with hlen
    swap
    · cases ht
    cases ht
    refine printedAs_leaf rfl rfl rfl trivial rfl (by decide) fun r _ => ?_
    rw [List.cons_append, List.append_assoc]
    exact reads_escaped hs r
  | hash hlen =>
    rw [h.hash] at ht
    cases ht
    exact printedAs_leaf rfl rfl rfl trivial rfl (by decide) fun r _ =>
      reads_plain (List.forall_mem_append.2 ⟨forall_mem_of_all (by decide), plain_hexstring _⟩)
        (stringValue_hash hlen) r
  | buffer =>
    rw [h.buffer] at ht
    cases ht
    exact printedAs_leaf rfl rfl rfl trivial rfl (by decide) fun r _ =>
      reads_plain (List.forall_mem_append.2 ⟨forall_mem_of_all (by decide), plain_hexstring _⟩)
        (stringValue_buffer _) r
  | @array list hlist hregular =>
    exact h.printedAs_array htext hlist
      (fun u hu => ih u hu (hsimple.2 u hu) (hregular u hu)) ht
  | @object map hsorted hnames hvals =>
    refine h.printedAs_object htext hsorted hnames (fun kv hkv => ?_) ht
    have hmem : kv.2 ∈ (JSON.object map).children := List.mem_map_of_mem hkv
    exact ih kv.2 hmem (hsimple.2 _ hmem) (hvals kv hkv)
  | _ => exact hsimple.1.elim

end Printed

variable (doubles) in
/-- **A document is read again** from what either printer makes of it. -/
def Rereads (v : JSON Double) : Prop :=
  (∃ t, dump doubles (ascii "  ") false 1 v = .ok t ∧ load doubles t = .ok (v, .success)) ∧
    ∃ t, dumpVector doubles false v = .ok t ∧
      ∀ after, loadBytes doubles (t ++ after) t.length = .ok (v, .success)

/-- An object that shows nothing ends in an empty one. -/
theorem not_cramped_dump {tab : Bytes} {depth n : ℕ} (hn : 0 < n) {v : JSON Double}
    (h : ¬ EndsEmpty 2 v) :
    ¬ Cramped (fun depth => ((padding tab depth).drop 2).length + 1) depth n v :=
  fun hcramped => h (.empty (hcramped.empty_of_pos (fun _ => Nat.succ_pos _) hn))

/-- A regular document is printed and read again if its strings and its keys are short and it does
not end in an empty object. -/
theorem Regular.rereads_iff_short {v : JSON Double} (hregular : Regular v)
    (hroot : (∃ map, v = .object map) ∨ ∃ list, v = .array list) (hsimple : Throughout IsSimple v) :
    Rereads doubles v ↔
      Throughout ShortString v ∧ Throughout ShortKeys v ∧ ¬ EndsEmpty 2 v := by
  have htab : Blank (ascii "  ") := forall_mem_of_all (by decide)
  have hdump := isPrinter_dump doubles false htab
  have hvector := isPrinter_dumpVector doubles false
  have hroot : ∀ i, v ≠ .integral i := by
    rintro i rfl
    rcases hroot with ⟨map, h⟩ | ⟨list, h⟩
    · cases h
    · cases h
  have hzero : ∀ n, ¬ Cramped (fun _ => 0) 1 n v ↔ ¬ (n < 3 ∧ EndsEmpty (2 - n) v) :=
    fun n => not_congr cramped_zero_iff
  constructor
  · rintro ⟨⟨t, ht, -⟩, t', ht', hload'⟩
    have hprinted' := @IsPrinter.printedAs Double doubles _ _ hvector v hsimple hregular 1 t' ht'
    have hread := (hprinted'.loadBytes_iff hroot [] v).1 (hload' [])
    rw [hzero] at hread
    exact ⟨(hdump.ok_iff hsimple 1).1 ⟨t, ht⟩, hread.1.1, fun h => hread.1.2 ⟨by simp, h⟩⟩
  · rintro ⟨hstrings, hkeys, hempty⟩
    obtain ⟨t, ht⟩ := (hdump.ok_iff hsimple 1).2 hstrings
    obtain ⟨t', ht'⟩ := (hvector.ok_iff hsimple 1).2 hstrings
    have hprinted := @IsPrinter.printedAs Double doubles _ _ hdump v hsimple hregular _ t ht
    have hprinted' := @IsPrinter.printedAs Double doubles _ _ hvector v hsimple hregular 1 t' ht'
    refine ⟨⟨t, ht, ?_⟩, t', ht', fun after => ?_⟩
    · exact (hprinted.load_iff hroot v).2
        ⟨⟨hkeys, not_cramped_dump (Nat.succ_pos 0) hempty⟩, rfl⟩
    · refine (hprinted'.loadBytes_iff hroot after v).2 ⟨⟨hkeys, ?_⟩, rfl⟩
      rw [hzero]
      exact fun h => hempty (h.2.mono (Nat.sub_le 2 _))

theorem reads_of_load {s : Bytes} {v : JSON Double} (hload : load doubles s = .ok (v, .success))
    (hroot : (∃ map, v = .object map) ∨ ∃ list, v = .array list) :
    ∃ r, Reads doubles (s ++ [0]) v r := by
  by_cases hs : s = []
  · subst hs
    cases hload
    rcases hroot with ⟨map, h⟩ | ⟨list, h⟩
    · cases h
    · cases h
  · exact (load_success_iff hs).1 hload

/-- **A document that was read is read again** from what is printed of it, unless `json_escape` does
not get to the end of one of its strings or of one of its keys, or it ends in an empty object. -/
theorem rereads_iff {s : Bytes} {v : JSON Double} (hload : load doubles s = .ok (v, .success))
    (hroot : (∃ map, v = .object map) ∨ ∃ list, v = .array list) (hsimple : Throughout IsSimple v) :
    Rereads doubles v ↔
      Throughout ShortString v ∧ Throughout ShortKeys v ∧ ¬ EndsEmpty 2 v := by
  obtain ⟨r, hread⟩ := reads_of_load hload hroot
  exact hread.regular.rereads_iff_short hroot hsimple

/-- The document `[{"k":"$&BT&$0a"},-2]`. -/
theorem rereads_plain : Rereads plainDoubles
    (.array [.object [([107], .buffer [10])], .integral (-2)]) := by
  have hload : load plainDoubles [91, 123, 34, 107, 34, 58, 34, 36, 38, 66, 84, 38, 36, 48, 97, 34,
    125,
      44, 45, 50, 93] = .ok (.array [.object [([107], .buffer [10])], .integral (-2)], .success) :=
      rfl
  have hbuffer : ∀ P : JSON Unit → Prop, Throughout P (.buffer [10]) ↔ P (.buffer [10]) :=
    fun _ => throughout_leaf rfl
  have hintegral : ∀ P : JSON Unit → Prop, Throughout P (.integral (-2)) ↔ P (.integral (-2)) :=
    fun _ => throughout_leaf rfl
  have hkey : ShortName [107] := shortName_of_length (by decide)
  refine (rereads_iff hload (.inr ⟨_, rfl⟩) ?_).2 ⟨?_, ?_, ?_⟩
  · simp [throughout_array, throughout_object, hbuffer, hintegral, IsSimple]
  · simp [throughout_array, throughout_object, hbuffer, hintegral, ShortString]
  · simp [throughout_array, throughout_object, hbuffer, hintegral, ShortKeys, hkey]
  · -- The last part of the array is a number.
    rintro (⟨hv⟩ | ⟨hu, h⟩)
    · cases hv
    · cases hu
      rcases h with ⟨hv⟩ | ⟨hu, -⟩
      · cases hv
      · cases hu

/-- **The document of a text of less than 4 GiB** is read again, if it does not end in an empty
object. -/
theorem rereads_of_length {s : Bytes} {v : JSON Double} (hs : s.length < uint32Size)
    (hload : load doubles s = .ok (v, .success))
    (hroot : (∃ map, v = .object map) ∨ ∃ list, v = .array list) (hsimple : Throughout IsSimple v)
    (hempty : ¬ EndsEmpty 2 v) : Rereads doubles v := by
  obtain ⟨r, hread⟩ := reads_of_load hload hroot
  have hshort := hread.short (by rw [List.length_append, List.length_singleton]; omega)
  obtain ⟨hstrings, hkeys⟩ := throughout_and.1 hshort
  exact (hread.regular.rereads_iff_short hroot hsimple).2 ⟨hstrings, hkeys, hempty⟩

/-- An array of one string that stands for itself is read. -/
theorem load_singleton (s : Bytes) (hs : ¬ Tagged s) :
    load doubles (91 :: 34 :: (escaped s ++ [34, 93])) = .ok (.array [.string s], .success) := by
  have hmem : (91 :: 34 :: (escaped s ++ [34, 93])) ++ [0] =
    91 :: 34 :: (escaped s ++ [34, 93, 0]) := by
    simp
  rw [load_success_iff (List.cons_ne_nil _ _), hmem]
  exact ⟨[0], (ReadsElements.last (reads_escaped hs [93, 0]) rfl).reads (by simp [uint32Size])⟩

/-- An array of a string of 4 GiB. -/
theorem not_rereads :
    load plainDoubles (91 :: 34 :: (List.replicate uint32Size 97 ++ [34, 93])) =
        .ok (.array [.string (List.replicate uint32Size 97)], .success) ∧
      ¬ Rereads plainDoubles (.array [.string (List.replicate uint32Size 97)]) := by
  have hlong : ∀ n, n ≠ 0 → load plainDoubles (91 :: 34 :: (List.replicate n 97 ++ [34, 93])) =
      .ok (.array [.string (List.replicate n 97)], .success) := by
    intro n hn
    have hplain : ∀ c ∈ List.replicate n (97 : UInt8), PlainByte c := by
      intro c hc
      rw [List.eq_of_mem_replicate hc]
      decide
    have hload := @load_singleton _ plainDoubles (List.replicate n 97) (not_tagged_of_head (by
      rw [List.head?_replicate, if_neg hn]
      decide))
    rwa [escaped_plain hplain] at hload
  refine ⟨hlong uint32Size (by decide), ?_⟩
  rintro ⟨⟨t, ht, -⟩, -⟩
  have hfits : (List.replicate uint32Size (97 : UInt8)).length < uint32Size := by
    by_contra hno
    rw [dump, dumpElements, dump, jsonEscape, if_neg hno] at ht
    cases ht
  rw [List.length_replicate] at hfits
  exact lt_irrefl _ hfits

end Dcap.JSON
