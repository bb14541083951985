import AttestationChain.Dcap.Json.Strings
import Mathlib.Algebra.Order.BigOperators.Group.List
import Mathlib.Algebra.Order.Group.Nat

/-!
# Dcap/Json/Members — strings that are read back as they were sent

The members of an object of strings are read back just where each of its strings stands for itself
(`readBack_iff`): spelled character by character, or with an escaped slash, and without a tag.  The
names of an object only ever step up from its keys, so none of them can stand in for another
(`names_eq_keys`).
-/

namespace Dcap.JSON

open JsonText (Chars skipWs)

variable {Double : Type}

/-! ## All of the keys -/

/-- **Keys that all turn up among their names are their names**: a tag that got lost and a name that
got longer would be missing. -/
theorem names_eq_keys {rows : List (Bytes × Bytes)} (hkeys : (rows.map Prod.fst).Nodup)
    (hsub : rows.map Prod.fst ⊆ rows.map Prod.snd) (hup : ∀ row ∈ rows, StepsUp row.1 row.2) :
    ∀ row ∈ rows, row.2 = row.1 := by
  have hperm : (rows.map Prod.fst).Perm (rows.map Prod.snd) :=
    (hkeys.subperm hsub).perm_of_length_le (by simp)
  -- A text without a tag outweighs all that have one, and of two texts alike the longer one.
  let bound := ((rows.map Prod.fst).map List.length).sum + 1
  let weight (b : Bytes) : ℕ := if b.head? = some 36 then b.length else bound + b.length
  have hlen : ∀ row ∈ rows, row.1.length < bound := fun row hrow =>
    Nat.lt_succ_of_le (List.single_le_sum (by simp) _
      (List.mem_map_of_mem (List.mem_map_of_mem hrow)))
  have hle : ∀ row ∈ rows, weight row.1 ≤ weight row.2 ∧
      (row.2 ≠ row.1 → weight row.1 < weight row.2) := by
    intro row hrow
    have := hlen row hrow
    obtain ⟨htag, hcase⟩ := hup row hrow
    simp only [weight]
    split_ifs with h₁ h₂ h₂
    · rcases hcase (fun _ => h₂) with heq | hlt
      · exact ⟨by rw [heq], fun hne => (hne heq).elim⟩
      · exact ⟨hlt.le, fun _ => hlt⟩
    · exact ⟨by omega, fun _ => by omega⟩
    · exact (h₁ (htag h₂)).elim
    · rcases hcase (fun h => (h₁ h).elim) with heq | hlt
      · exact ⟨by rw [heq], fun hne => (hne heq).elim⟩
      · exact ⟨by omega, fun _ => by omega⟩
  by_contra hne
  push Not at hne
  obtain ⟨row, hrow, hne⟩ := hne
  have hlt : (rows.map fun row => weight row.1).sum < (rows.map fun row => weight row.2).sum :=
    List.sum_lt_sum _ _ (fun row hrow => (hle row hrow).1) ⟨row, hrow, (hle row hrow).2 hne⟩
  have heq := (hperm.map weight).sum_eq
  rw [List.map_map, List.map_map] at heq
  exact hlt.ne heq

/-! ## The members of a text -/

/-- A string that stands for itself, as a key… -/
def OwnKey (s v r : List Char) : Prop := Plain s v r ∧ ¬ Tagged (utf8 v)

/-- …and as a value. -/
def OwnValue (s v r : List Char) : Prop :=
  Plain s v r ∧ ¬ Tagged (utf8 v) ∧ (utf8 v).length < uint32Size

/-- **The members of an object whose strings all stand for themselves**, through its closing
brace. -/
inductive OwnMembers : List Char → List (List Char × List Char) → List Char → Prop
  | last {s t k u w t' v x r} (hquote : skipWs s = '"' :: t) (hk : OwnKey t k u)
      (hcolon : skipWs u = ':' :: w) (hvalue : skipWs w = '"' :: t') (hv : OwnValue t' v x)
      (hend : skipWs x = '\x7d' :: r) : OwnMembers s [(k, v)] r
  | cons {s t k u w t' v x y kvs r} (hquote : skipWs s = '"' :: t) (hk : OwnKey t k u)
      (hcolon : skipWs u = ':' :: w) (hvalue : skipWs w = '"' :: t') (hv : OwnValue t' v x)
      (hcomma : skipWs x = ',' :: y) (hrest : OwnMembers y kvs r) : OwnMembers s ((k, v) :: kvs) r

/-- **An object whose strings all stand for themselves.** -/
def OwnObject (cs : List Char) (kvs : List (List Char × List Char)) : Prop :=
  kvs = [] ∨ ∃ s r, skipWs cs = '\x7b' :: s ∧ OwnMembers s kvs r

theorem Plain.chars {s v r : List Char} (h : Plain s v r) : Chars s v r := by
  induction h with
  | close => exact .close
  | char hc hquote hescape _ ih => exact .plain hc hquote hescape ih
  | slash _ ih => exact .escape rfl ih

section Inversion

variable {s t k u w t' v x r : List Char} (hquote : skipWs s = '"' :: t) (hk : Chars t k u)
  (hcolon : skipWs u = ':' :: w) (hvalue : skipWs w = '"' :: t') (hv : Chars t' v x)

include hquote hk hcolon hvalue hv

theorem ownMembers_last_iff (hend : skipWs x = '\x7d' :: r) :
    OwnMembers s [(k, v)] r ↔ OwnKey t k u ∧ OwnValue t' v x := by
  refine ⟨fun h => ?_, fun ⟨hk, hv⟩ => .last hquote hk hcolon hvalue hv hend⟩
  cases h with
  | last hquote' hk' hcolon' hvalue' hv' =>
    rw [hquote] at hquote'
    cases hquote'
    obtain ⟨-, rfl⟩ := hk.unique hk'.1.chars
    rw [hcolon] at hcolon'
    cases hcolon'
    rw [hvalue] at hvalue'
    cases hvalue'
    obtain ⟨-, rfl⟩ := hv.unique hv'.1.chars
    exact ⟨hk', hv'⟩
  | cons _ _ _ _ _ _ hrest => cases hrest

theorem ownMembers_cons_iff {y : List Char} {kvs : List (List Char × List Char)}
    (hcomma : skipWs x = ',' :: y) :
    OwnMembers s ((k, v) :: kvs) r ↔ (OwnKey t k u ∧ OwnValue t' v x) ∧ OwnMembers y kvs r := by
  refine ⟨fun h => ?_, fun ⟨⟨hk, hv⟩, hrest⟩ => .cons hquote hk hcolon hvalue hv hcomma hrest⟩
  cases h with
  | last hquote' hk' hcolon' hvalue' hv' hend =>
    rw [hquote] at hquote'
    cases hquote'
    obtain ⟨-, rfl⟩ := hk.unique hk'.1.chars
    rw [hcolon] at hcolon'
    cases hcolon'
    rw [hvalue] at hvalue'
    cases hvalue'
    obtain ⟨-, rfl⟩ := hv.unique hv'.1.chars
    rw [hcomma] at hend
    cases hend
  | cons hquote' hk' hcolon' hvalue' hv' hcomma' hrest =>
    rw [hquote] at hquote'
    cases hquote'
    obtain ⟨-, rfl⟩ := hk.unique hk'.1.chars
    rw [hcolon] at hcolon'
    cases hcolon'
    rw [hvalue] at hvalue'
    cases hvalue'
    obtain ⟨-, rfl⟩ := hv.unique hv'.1.chars
    rw [hcomma] at hcomma'
    cases hcomma'
    exact ⟨⟨hk', hv'⟩, hrest⟩

end Inversion

/-- Blanks in front of a text are those in front of its bytes. -/
theorem skipBlanks_utf8 {s r : List Char} {d : Char} (h : skipWs s = d :: r) (hd : d.toNat < 128) :
    skipBlanks (utf8 s) = d.toNat.toUInt8 :: utf8 r := by
  induction s with
  | nil => cases h
  | cons c s ih =>
    by_cases hc : c = ' ' ∨ c = '\t' ∨ c = '\n' ∨ c = '\r'
    · rw [skipWs, List.dropWhile_cons_of_pos (by simpa using hc)] at h
      have hblank : skipBlanks (utf8 (c :: s)) = skipBlanks (utf8 s) := by
        rcases hc with rfl | rfl | rfl | rfl
        · rfl
        · rfl
        · rfl
        · rfl
      rw [hblank]
      exact ih h
    · rw [skipWs, List.dropWhile_cons_of_neg (by simpa using hc)] at h
      cases h
      have hne : ∀ e : Char, e.toNat < 128 → d ≠ e → d.toNat.toUInt8 ≠ e.toNat.toUInt8 := by
        intro e he hne heq
        have hnat := congrArg UInt8.toNat heq
        rw [UInt8.toNat_ofNat', UInt8.toNat_ofNat', Nat.mod_eq_of_lt (by omega),
          Nat.mod_eq_of_lt (by omega)] at hnat
        exact hne (Char.toNat_inj.1 hnat)
      rw [utf8_cons, utf8EncodeChar_ascii hd, List.singleton_append, skipBlanks,
        List.dropWhile_cons_of_neg]
      simp only [not_or] at hc
      simp only [isBlank, Bool.or_eq_true, decide_eq_true_eq, not_or]
      exact ⟨⟨⟨hne ' ' (by decide) hc.1, hne '\t' (by decide) hc.2.1⟩,
        hne '\n' (by decide) hc.2.2.1⟩, hne '\r' (by decide) hc.2.2.2⟩

/-- A key and its value, as they were sent and as they are read. -/
def Exact (kv : List Char × List Char) (row : Bytes × JSON Double) : Prop :=
  row.1 = utf8 kv.1 ∧ row.2.toString = .ok (utf8 kv.2)

theorem putMember_object {key v obj : JSON Double} {map : List (Bytes × JSON Double)}
    (h : putMember key (.object map) v = .ok obj) :
    ∃ name, key.toString = .ok name ∧ obj = .object (mapSet name v map) := by
  obtain ⟨name, hname, hset⟩ := bind_eq_ok.1 h
  exact ⟨name, hname, (Except.ok.inj hset).symm⟩

/-- **A member is read**: its name steps up from its key, and it is exact if it stands for
itself. -/
theorem member_read {doubles : Doubles Double} {s t k u w t' v y : List Char}
    (hquote : skipWs s = '"' :: t) (hk : Chars t k u) (hcolon : skipWs u = ':' :: w)
    (hvalue : skipWs w = '"' :: t') (hv : Chars t' v y) {map : List (Bytes × JSON Double)}
    {obj : JSON Double} {x r : Bytes}
    (hread : ReadsMembers doubles (.object map) (utf8 s ++ x) obj r) :
    ∃ row : Bytes × JSON Double, StepsUp (utf8 k) row.1 ∧
      (Exact (k, v) row ↔ OwnKey t k u ∧ OwnValue t' v y) ∧
      ((∃ z, consumeWs (utf8 y ++ x) = .ok (44 :: z) ∧
          ReadsMembers doubles (.object (mapSet row.1 row.2 map)) z obj r) ∨
        consumeWs (utf8 y ++ x) = .ok (125 :: r) ∧ obj = .object (mapSet row.1 row.2 map)) := by
  obtain ⟨key, r₁, r₂, value, r₃, obj₁, hkey, hcolon', hread, hput, hnext⟩ := hread.head
  obtain ⟨val, hval, hhead, hkept⟩ := chars_literal hk
  obtain ⟨val', hval', hhead', hkept'⟩ := chars_literal hv
  obtain ⟨rfl, hx⟩ := hkey.key (skipBlanks_utf8 hquote (by decide)) hval
  rw [consumeWs_append_of_skipBlanks (skipBlanks_utf8 hcolon (by decide)) rfl x] at hcolon'
  cases hcolon'
  obtain ⟨rfl, hx'⟩ := hread.key (skipBlanks_utf8 hvalue (by decide)) hval'
  obtain ⟨name, hname, rfl⟩ := putMember_object hput
  refine ⟨(name, value), stepsUp_name hhead hkept hx hname, ?_, hnext⟩
  exact and_congr (name_eq_iff hhead hkept hx hname) (toString_eq_iff hhead' hkept' hx')

/-- The members of an object of strings. -/
def strings (kvs : List (List Char × List Char)) : List (List Char × JsonText.Value) :=
  kvs.map fun kv => (kv.1, .string kv.2)

/-- Members put one after the other. -/
def putAll (map : List (Bytes × JSON Double)) (rows : List (Bytes × JSON Double)) :
    List (Bytes × JSON Double) :=
  rows.foldl (fun map row => mapSet row.1 row.2 map) map

theorem strings_eq_cons {kvs : List (List Char × List Char)} {k : List Char} {v : JsonText.Value}
    {ms : List (List Char × JsonText.Value)} (h : (k, v) :: ms = strings kvs) :
    ∃ v' kvs', v = .string v' ∧ ms = strings kvs' ∧ kvs = (k, v') :: kvs' := by
  cases kvs with
  | nil => cases h
  | cons kv kvs =>
    cases h
    exact ⟨kv.2, kvs, rfl, rfl, rfl⟩

theorem reads_string_iff {s v r : List Char} :
    JsonText.Reads s (.string v) r ↔ ∃ t, s = '"' :: t ∧ Chars t v r := by
  constructor
  · intro h
    cases h with
    | string h => exact ⟨_, rfl, h⟩
  · rintro ⟨t, rfl, h⟩
    exact .string h

theorem reads_object_cases {s r : List Char} {ms : List (List Char × JsonText.Value)}
    (h : JsonText.Reads s (.object ms) r) :
    ms = [] ∨ ∃ t, s = '\x7b' :: t ∧ JsonText.Members t ms r := by
  cases h with
  | emptyObject h => exact .inl rfl
  | object h => exact .inr ⟨_, rfl, h⟩

theorem members_start {s r : List Char} {ms : List (List Char × JsonText.Value)}
    (h : JsonText.Members s ms r) : ∃ t, skipWs s = '"' :: t := by
  cases h with
  | last hquote => exact ⟨_, hquote⟩
  | cons hquote => exact ⟨_, hquote⟩

/-- **The members of a text are read**, one row for each. -/
theorem members_read {doubles : Doubles Double} {s r : List Char}
    {ms : List (List Char × JsonText.Value)} (h : JsonText.Members s ms r)
    {kvs : List (List Char × List Char)} (hms : ms = strings kvs)
    {map : List (Bytes × JSON Double)} {obj : JSON Double} {x r' : Bytes}
    (hread : ReadsMembers doubles (.object map) (utf8 s ++ x) obj r') :
    ∃ rows, obj = .object (putAll map rows) ∧
      List.Forall₂ (fun kv row => StepsUp (utf8 kv.1) row.1) kvs rows ∧
      (OwnMembers s kvs r ↔ List.Forall₂ Exact kvs rows) :=
  match h with
  | .last hquote hk hcolon hv hend => by
    obtain ⟨v, kvs', rfl, hkvs, rfl⟩ := strings_eq_cons hms
    obtain ⟨t', hvalue, hv⟩ := reads_string_iff.1 hv
    obtain ⟨row, hup, hexact, hnext⟩ := member_read hquote hk hcolon hvalue hv hread
    obtain rfl : kvs' = [] := List.map_eq_nil_iff.1 hkvs.symm
    rw [consumeWs_append_of_skipBlanks (skipBlanks_utf8 hend (by decide)) rfl x] at hnext
    rcases hnext with ⟨z, hcomma, -⟩ | ⟨-, rfl⟩
    · cases hcomma
    · refine ⟨[row], rfl, .cons hup .nil, ?_⟩
      rw [ownMembers_last_iff hquote hk hcolon hvalue hv hend, List.forall₂_cons, hexact]
      exact (and_iff_left .nil).symm
  | .cons hquote hk hcolon hv hcomma hrest => by
    obtain ⟨v, kvs', rfl, hkvs, rfl⟩ := strings_eq_cons hms
    obtain ⟨t', hvalue, hv⟩ := reads_string_iff.1 hv
    obtain ⟨row, hup, hexact, hnext⟩ := member_read hquote hk hcolon hvalue hv hread
    rw [consumeWs_append_of_skipBlanks (skipBlanks_utf8 hcomma (by decide)) rfl x] at hnext
    rcases hnext with ⟨z, hcomma', hrest'⟩ | ⟨hend, -⟩
    · cases hcomma'
      obtain ⟨rows, hobj, hups, hexacts⟩ := members_read hrest hkvs hrest'
      refine ⟨row :: rows, hobj, .cons hup hups, ?_⟩
      rw [ownMembers_cons_iff hquote hk hcolon hvalue hv hcomma, List.forall₂_cons, hexact, hexacts]
    · cases hend

/-! ## Reading them back -/

theorem mapFind_putAll_of_notMem {rows : List (Bytes × JSON Double)} {key : Bytes}
    (h : key ∉ rows.map Prod.fst) (map : List (Bytes × JSON Double)) :
    mapFind (putAll map rows) key = mapFind map key := by
  induction rows generalizing map with
  | nil => rfl
  | cons row rows ih =>
    rw [List.map_cons, List.mem_cons, not_or] at h
    rw [putAll, List.foldl_cons, ← putAll, ih h.2, mapFind_mapSet, if_neg fun h' => h.1 h'.symm]

theorem mapFind_putAll_of_mem {rows : List (Bytes × JSON Double)} {row : Bytes × JSON Double}
    (hrows : (rows.map Prod.fst).Nodup) (h : row ∈ rows) (map : List (Bytes × JSON Double)) :
    mapFind (putAll map rows) row.1 = some row.2 := by
  induction rows generalizing map with
  | nil => cases h
  | cons row' rows ih =>
    rw [List.map_cons, List.nodup_cons] at hrows
    rw [putAll, List.foldl_cons, ← putAll]
    rcases List.mem_cons.1 h with rfl | h
    · rw [mapFind_putAll_of_notMem hrows.1, mapFind_mapSet, if_pos rfl]
    · exact ih hrows.2 h _

/-- **The members are read back as they were sent**: each key is there, and at it is its value. -/
def ReadBack (j : JSON Double) (kvs : List (List Char × List Char)) : Prop :=
  ∀ kv ∈ kvs, hasKey j (utf8 kv.1) = true ∧
    (j.index (utf8 kv.1) >>= fun r => r.1.toString) = .ok (utf8 kv.2)

theorem readBack_iff_of_find {map : List (Bytes × JSON Double)} {kvs : List (List Char × List Char)}
    {rows : List (Bytes × JSON Double)}
    (h : List.Forall₂ (fun kv row => mapFind map (utf8 kv.1) = some row.2) kvs rows) :
    ReadBack (.object map) kvs ↔
      List.Forall₂ (fun kv row => row.2.toString = .ok (utf8 kv.2)) kvs rows := by
  induction h with
  | nil => exact iff_of_true (by simp [ReadBack]) .nil
  | @cons kv row kvs rows hfind h ih =>
    have hindex : ((JSON.object map).index (utf8 kv.1) >>= fun r => r.1.toString) =
        row.2.toString := by
      rw [index_object, hfind]
      rfl
    rw [ReadBack, List.forall_mem_cons, ← ReadBack, ih, List.forall₂_cons, hindex, hasKey, hfind]
    simp

/-- Where the names are the keys, what is found at a key is its own value. -/
theorem readBack_iff_of_names {kvs : List (List Char × List Char)}
    {rows : List (Bytes × JSON Double)} (hkeys : (kvs.map fun kv => utf8 kv.1).Nodup)
    (hnames : List.Forall₂ (fun kv row => row.1 = utf8 kv.1) kvs rows) :
    ReadBack (.object (putAll [] rows)) kvs ↔ List.Forall₂ Exact kvs rows := by
  have hrows : rows.map Prod.fst = kvs.map fun kv => utf8 kv.1 := by
    clear hkeys
    induction hnames with
    | nil => rfl
    | cons h _ ih => rw [List.map_cons, List.map_cons, h, ih]
  have hzip : ∀ kv row, (kv, row) ∈ kvs.zip rows → row.1 = utf8 kv.1 := fun _ _ hmem =>
    (List.forall₂_iff_zip.1 hnames).2 hmem
  have hfind : List.Forall₂ (fun kv row => mapFind (putAll [] rows) (utf8 kv.1) = some row.2)
      kvs rows := List.forall₂_iff_zip.2 ⟨hnames.length_eq, fun {kv row} hmem => by
    rw [← hzip kv row hmem]
    exact mapFind_putAll_of_mem (hrows ▸ hkeys) (List.of_mem_zip hmem).2 []⟩
  rw [readBack_iff_of_find hfind, List.forall₂_iff_zip, List.forall₂_iff_zip]
  exact and_congr_right fun _ => ⟨fun h kv row hmem => ⟨hzip kv row hmem, h hmem⟩,
    fun h _ _ hmem => (h hmem).2⟩

/-- Members are read back if each of them is exact. -/
theorem readBack_putAll_iff {kvs : List (List Char × List Char)}
    {rows : List (Bytes × JSON Double)} (hkeys : (kvs.map Prod.fst).Nodup)
    (hups : List.Forall₂ (fun kv row => StepsUp (utf8 kv.1) row.1) kvs rows) :
    ReadBack (.object (putAll [] rows)) kvs ↔ List.Forall₂ Exact kvs rows := by
  have hlen := hups.length_eq
  have hkeys' : (kvs.map fun kv => utf8 kv.1).Nodup := by
    have := hkeys.map fun _ _ => utf8_injective
    rwa [List.map_map] at this
  refine ⟨fun hback => ?_, fun h => (readBack_iff_of_names hkeys' (h.imp fun _ _ h => h.1)).2 h⟩
  refine (readBack_iff_of_names hkeys' ?_).1 hback
  -- Each key turns up among the names, so the names are the keys.
  let pairs := (kvs.zip rows).map fun p => (utf8 p.1.1, p.2.1)
  have hfst : pairs.map Prod.fst = kvs.map fun kv => utf8 kv.1 := by
    conv_rhs => rw [← List.map_fst_zip hlen.le, List.map_map]
    exact List.map_map
  have hsnd : pairs.map Prod.snd = rows.map Prod.fst := by
    conv_rhs => rw [← List.map_snd_zip hlen.ge, List.map_map]
    exact List.map_map
  have hsub : pairs.map Prod.fst ⊆ pairs.map Prod.snd := by
    rw [hfst, hsnd]
    intro key hkey
    obtain ⟨kv, hkv, rfl⟩ := List.mem_map.1 hkey
    by_contra hno
    have := (hback kv hkv).1
    rw [hasKey, mapFind_putAll_of_notMem hno] at this
    cases this
  have hups' : ∀ pair ∈ pairs, StepsUp pair.1 pair.2 := by
    intro pair hpair
    obtain ⟨p, hp, rfl⟩ := List.mem_map.1 hpair
    exact (List.forall₂_iff_zip.1 hups).2 hp
  have hall := names_eq_keys (hfst ▸ hkeys') hsub hups'
  exact List.forall₂_iff_zip.2 ⟨hlen, fun {kv row} hmem =>
    hall (utf8 kv.1, row.1) (List.mem_map.2 ⟨(kv, row), hmem, rfl⟩)⟩

theorem OwnMembers.members {s r : List Char} {kvs : List (List Char × List Char)}
    (h : OwnMembers s kvs r) : JsonText.Members s (strings kvs) r := by
  induction h with
  | last hquote hk hcolon hvalue hv hend =>
    exact .last hquote hk.1.chars hcolon (reads_string_iff.2 ⟨_, hvalue, hv.1.chars⟩) hend
  | cons hquote hk hcolon hvalue hv hcomma _ ih =>
    exact .cons hquote hk.1.chars hcolon (reads_string_iff.2 ⟨_, hvalue, hv.1.chars⟩) hcomma ih

/-- **The string members of a text are read back** if all its strings stand for themselves. -/
theorem readBack_iff (doubles : Doubles Double) {cs : List Char}
    {kvs : List (List Char × List Char)} {j : JSON Double}
    (htext : JsonText.Text cs (.object (strings kvs))) (hkeys : (kvs.map Prod.fst).Nodup)
    (hload : load doubles (utf8 cs) = .ok (j, .success)) : ReadBack j kvs ↔ OwnObject cs kvs := by
  obtain ⟨r, htext, -⟩ := htext
  rcases reads_object_cases htext with hnone | ⟨s, hs, hms⟩
  · obtain rfl : kvs = [] := List.map_eq_nil_iff.1 hnone
    exact iff_of_true (by simp [ReadBack]) (.inl rfl)
  have hopen := skipBlanks_utf8 hs (by decide)
  have hne : utf8 cs ≠ [] := by
    intro hnil
    rw [hnil] at hopen
    cases hopen
  obtain ⟨r', hread⟩ := (load_success_iff hne).1 hload
  have hread' : Reads doubles (123 :: (utf8 s ++ [0])) j r' := by
    refine hread.of_consumeWs ?_
    rw [consumeWs_append_of_skipBlanks hopen rfl]
    rfl
  obtain ⟨t, hquote⟩ := members_start hms
  have hquote' := skipBlanks_append (skipBlanks_utf8 hquote (by decide)) [0]
  have hws := consumeWs_of_skipBlanks hquote' rfl
  obtain ⟨-, ⟨-, hend⟩ | hmembers⟩ := (reads_plainBrace_iff hws (by decide)).1 hread'
  · rw [hws] at hend
    cases hend
  obtain ⟨rows, rfl, hups, hexact⟩ := members_read hms rfl hmembers
  rw [readBack_putAll_iff hkeys hups, ← hexact]
  refine ⟨fun h => .inr ⟨s, r, hs, h⟩, ?_⟩
  rintro (rfl | ⟨s', r', hs', h⟩)
  · cases hms
  · rw [hs] at hs'
    cases hs'
    obtain ⟨-, rfl⟩ := hms.unique h.members
    exact h

/-- An object of two strings, a character and an escaped slash. -/
def plainObject : List Char :=
  ['\x7b', '"', 'a', '"', ':', '"', 'b', '"', ',', '"', 'c', '"', ':', '"', '\\', '/', '"', '\x7d']

/-- What it is read as. -/
def plainMembers : JSON Unit := .object [([97], .string [98]), ([99], .string [47])]

theorem readBack_plain : load plainDoubles (utf8 plainObject) = .ok (plainMembers, .success) ∧
    (ReadBack plainMembers [(['a'], ['b']), (['c'], ['/'])] ↔
      OwnObject plainObject [(['a'], ['b']), (['c'], ['/'])]) :=
  have hload : load plainDoubles (utf8 plainObject) = .ok (plainMembers, .success) := rfl
  have htext : JsonText.Text plainObject
      (.object (strings [(['a'], ['b']), (['c'], ['/'])])) :=
    ⟨[], .object (.cons rfl (.plain (by decide) (by decide) (by decide) .close) rfl
      (.string (.plain (by decide) (by decide) (by decide) .close)) rfl
      (.last rfl (.plain (by decide) (by decide) (by decide) .close) rfl
        (.string (.escape rfl .close)) rfl)), rfl⟩
  ⟨hload, readBack_iff plainDoubles htext (by decide) hload⟩

/-- A quote: it is read, and comes back with a backslash. -/
theorem not_readBack : ¬ ∀ cs kvs j, JsonText.Text cs (.object (strings kvs)) →
    (kvs.map Prod.fst).Nodup → load plainDoubles (utf8 cs) = .ok (j, .success) →
    ReadBack j kvs := by
  intro h
  have htext : JsonText.Text ['\x7b', '"', 'a', '"', ':', '"', '\\', '"', '"', '\x7d']
      (.object (strings [(['a'], ['"'])])) :=
    ⟨[], .object (.last rfl (.plain (by decide) (by decide) (by decide) .close) rfl
      (.string (.escape rfl .close)) rfl), rfl⟩
  have hback := (h _ _ (.object [([97], .string [34])]) htext (by decide) rfl (['a'], ['"'])
    List.mem_cons_self).2
  exact absurd (Except.ok.inj hback) (by decide)

end Dcap.JSON
