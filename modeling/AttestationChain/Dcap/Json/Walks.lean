import AttestationChain.Dcap.Json.Spelling

/-!
# Dcap/Json/Walks — the parser walks its grammar

The parser comes to a result just where there is a walk, and to what the walk says (`walk_iff`).
A walk is gone by its derivation, and a reading is one by the length of its memory.
-/

namespace Dcap.JSON

variable {Double : Type} {doubles : Doubles Double} {overload : Overload}

/-! ## Scalars -/

section Scalar

variable {status status' : CrustStatus} {mem r s : Bytes} {c : UInt8} {v : JSON Double}

theorem next_of_stands (h : Stands mem (c :: s)) (status : CrustStatus) :
    next doubles overload status mem = valueAt doubles overload status (c :: s) := by
  rw [next_eq, stands_iff.1 h]
  rfl

theorem next_of_scalar (h : Stands mem (c :: s)) (harray : c ≠ 91) (hobject : c ≠ 123)
    (status : CrustStatus) :
    next doubles overload status mem = scalar doubles overload status c s := by
  rw [next_of_stands h, valueAt, if_neg harray, if_neg hobject]

theorem walk_of_parseBool (h : Stands mem (c :: s)) (hc : c = 116 ∨ c = 102)
    (hbool : parseBool overload status (c :: s) = .ok (v, status', r)) :
    Walk doubles overload status mem v status' r := by
  obtain ⟨yes, hyes, hbool⟩ := bind_eq_ok.1 hbool
  obtain ⟨-, hyes⟩ := finds_eq_ok_iff.1 hyes
  split at hbool
  · rename_i hb
    obtain ⟨t, ht⟩ := hyes.1 hb
    rw [← ht] at h hbool
    cases hbool
    exact .word h .yes
  rename_i htrue
  obtain ⟨no, hno, hbool⟩ := bind_eq_ok.1 hbool
  obtain ⟨hroom, hno⟩ := finds_eq_ok_iff.1 hno
  split at hbool
  · rename_i hb
    obtain ⟨t, ht⟩ := hno.1 hb
    rw [← ht] at h hbool
    cases hbool
    exact .word h .no
  · rename_i hfalse
    cases hbool
    exact .badBool h hc (fun hword => htrue (hyes.2 hword)) (fun hword => hfalse (hno.2 hword))
      hroom

theorem walk_of_parseNull (h : Stands mem (110 :: s))
    (hnull : parseNull overload status (110 :: s) = .ok (v, status', r)) :
    Walk doubles overload status mem v status' r := by
  obtain ⟨null, hfinds, hnull⟩ := bind_eq_ok.1 hnull
  obtain ⟨hroom, hfinds⟩ := finds_eq_ok_iff.1 hfinds
  split at hnull
  · rename_i hb
    obtain ⟨t, ht⟩ := hfinds.1 hb
    rw [← ht] at h hnull
    cases hnull
    exact .word h .null
  · rename_i hword
    cases hnull
    exact .badNull h (fun h => hword (hfinds.2 h)) hroom

theorem walk_of_parseString (h : Stands mem (34 :: s))
    (hstring : parseString status s = .ok (v, status', r)) :
    Walk doubles overload status mem v status' r := by
  obtain ⟨⟨_ | val, r₁⟩, hscan, hstring⟩ := bind_eq_ok.1 hstring
  · cases hstring
    exact .badString h (scanString_eq_ok_iff.1 hscan)
  · obtain ⟨w, hw, hstring⟩ := bind_eq_ok.1 hstring
    cases hstring
    exact .string h (scanString_eq_ok_iff.1 hscan) (stringValue_eq_ok_iff.1 hw)

theorem walk_of_scalar (h : Stands mem (c :: s)) (harray : c ≠ 91) (hobject : c ≠ 123)
    (hscalar : scalar doubles overload status c s = .ok (v, status', r)) :
    Walk doubles overload status mem v status' r := by
  rw [scalar] at hscalar
  split_ifs at hscalar with hquote hbool hnull hnumber
  · subst hquote
    exact walk_of_parseString h hscalar
  · exact walk_of_parseBool h hbool hscalar
  · subst hnull
    exact walk_of_parseNull h hscalar
  · rcases parseNumber_eq_ok_iff.1 hscalar with ⟨hn, rfl⟩ | ⟨hn, rfl, rfl⟩
    · exact .number h hnumber hn
    · exact .badNumber h hnumber hn
  · cases hscalar
    rw [not_or] at hbool hnumber
    refine .unknown h ?_ (by simpa using hnumber.1)
    change c ∉ [91, 123, 34, 116, 102, 110, 45]
    simp [harray, hobject, hquote, hbool, hnull, hnumber.2]

theorem next_quote (h : Stands mem (34 :: s)) :
    next doubles overload status mem = parseString status s :=
  next_of_scalar h (by decide) (by decide) status

theorem next_number (h : Stands mem (c :: s)) (hc : isDigit c ∨ c = 45) :
    next doubles overload status mem = parseNumber doubles status (c :: s) := by
  obtain ⟨hquote, hbracket, hbrace, hbool, hnull⟩ := isNumberChar_of hc
  rw [next_of_scalar h hbracket hbrace, scalar, if_neg hquote, if_neg hbool, if_neg hnull,
    if_pos hc]

/-- A word that stands there is found, however it is looked for. -/
theorem Word.next_eq {w : Bytes} (hw : Word w v) (h : Stands mem (w ++ r)) :
    next doubles overload status mem = .ok (v, status, r) := by
  have hfinds : ∀ word b, word.length ≤ (w ++ r).length → (b = true ↔ word <+: w ++ r) →
      overload.finds (w ++ r) word = .ok b := fun word b hle hb =>
    finds_eq_ok_iff.2 ⟨fun _ => hle, hb⟩
  have hlen : w.length ≤ (w ++ r).length := by simp
  cases hw with
  | yes =>
    rw [next_of_scalar (c := 116) h (by decide) (by decide)]
    change parseBool overload status (ascii "true" ++ r) = _
    rw [parseBool, hfinds _ true hlen (iff_of_true rfl (List.prefix_append ..))]
    rfl
  | no =>
    rw [next_of_scalar (c := 102) h (by decide) (by decide)]
    change parseBool overload status (ascii "false" ++ r) = _
    have htrue : overload.finds (ascii "false" ++ r) (ascii "true") = .ok false :=
      hfinds _ false (le_trans (by decide) hlen) (by simp [ascii])
    rw [parseBool, htrue]
    change overload.finds (ascii "false" ++ r) (ascii "false") >>= _ = _
    rw [hfinds _ true hlen (iff_of_true rfl (List.prefix_append ..))]
    rfl
  | null =>
    rw [next_of_scalar (c := 110) h (by decide) (by decide)]
    change parseNull overload status (ascii "null" ++ r) = _
    rw [parseNull, hfinds _ true hlen (iff_of_true rfl (List.prefix_append ..))]
    rfl

theorem next_badBool (h : Stands mem (c :: s)) (hc : c = 116 ∨ c = 102)
    (htrue : ¬ ascii "true" <+: c :: s) (hfalse : ¬ ascii "false" <+: c :: s)
    (hroom : overload.Room 5 (c :: s)) :
    next doubles overload status mem = .ok (.null, .jsonBoolError, c :: s) := by
  have hne : c ≠ 91 ∧ c ≠ 123 ∧ c ≠ 34 := by
    rcases hc with rfl | rfl
    · decide
    · decide
  have hyes : overload.finds (c :: s) (ascii "true") = .ok false :=
    finds_eq_ok_iff.2 ⟨fun h => le_trans (by decide) (hroom h), iff_of_false (by simp) htrue⟩
  have hno : overload.finds (c :: s) (ascii "false") = .ok false :=
    finds_eq_ok_iff.2 ⟨hroom, iff_of_false (by simp) hfalse⟩
  rw [next_of_scalar h hne.1 hne.2.1, scalar, if_neg hne.2.2, if_pos hc, parseBool, hyes]
  change overload.finds (c :: s) (ascii "false") >>= _ = _
  rw [hno]
  rfl

theorem next_badNull (h : Stands mem (110 :: s)) (hnull : ¬ ascii "null" <+: 110 :: s)
    (hroom : overload.Room 4 (110 :: s)) :
    next doubles overload status mem = .ok (.null, .jsonNullError, 110 :: s) := by
  have hfinds : overload.finds (110 :: s) (ascii "null") = .ok false :=
    finds_eq_ok_iff.2 ⟨hroom, iff_of_false (by simp) hnull⟩
  rw [next_of_scalar h (by decide) (by decide)]
  change parseNull overload status (110 :: s) = _
  rw [parseNull, hfinds]
  rfl

theorem next_unknown (h : Stands mem (c :: s)) (hc : c ∉ ascii "[\x7b\"tfn-")
    (hdigit : isDigit c = false) :
    next doubles overload status mem = .ok (.null, .jsonStartingError, c :: s) := by
  have hne : c ≠ 91 ∧ c ≠ 123 ∧ c ≠ 34 ∧ ¬ (c = 116 ∨ c = 102) ∧ c ≠ 110 ∧ c ≠ 45 := by
    change c ∉ [91, 123, 34, 116, 102, 110, 45] at hc
    simpa [not_or, and_assoc] using hc
  obtain ⟨hbracket, hbrace, hquote, hbool, hnull, hminus⟩ := hne
  rw [next_of_scalar h hbracket hbrace, scalar, if_neg hquote, if_neg hbool, if_neg hnull,
    if_neg (by simp [hdigit, hminus])]

end Scalar

/-! ## Documents -/

theorem setNext_eq_ok_iff {list list' : List (JSON Double)} {v : JSON Double} :
    setNext list v = .ok list' ↔ list.length + 1 < uint32Size ∧ list' = list ++ [v] := by
  rw [setNext]
  split
  · rename_i hlen
    rw [Except.ok.injEq, and_iff_right hlen, eq_comm]
  · rename_i hlen
    exact iff_of_false (by simp) fun h => hlen h.1

/-- What becomes of an element that was read. -/
theorem elements_of_value {status status' : CrustStatus} {list : List (JSON Double)}
    {mem r m : Bytes} {v : JSON Double}
    (h : next doubles overload status mem = .ok (v, status', r))
    (hlist : list.length + 1 < uint32Size) (hm : consumeWs r = .ok m) :
    elements doubles overload status list mem =
      elementAt doubles overload status' (list ++ [v]) m := by
  rw [elements_eq, h]
  change setNext list v >>= _ = _
  rw [setNext_eq_ok_iff.2 ⟨hlist, rfl⟩]
  change consumeWs r >>= _ = _
  rw [hm]
  rfl

mutual

/-- **A walk is gone by the parser.** -/
theorem Walk.next_eq {status status' : CrustStatus} {mem r : Bytes} {v : JSON Double}
    (h : Walk doubles overload status mem v status' r) :
    next doubles overload status mem = .ok (v, status', r) :=
  match h with
  | .string h hs hv => by
    rw [next_quote h, parseString, scanString_eq_ok_iff.2 hs]
    change stringValue _ >>= _ = _
    rw [stringValue_eq_ok_iff.2 hv]
    rfl
  | .badString h hs => by
    rw [next_quote h, parseString, scanString_eq_ok_iff.2 hs]
    rfl
  | .word h hw => hw.next_eq h
  | .badBool h hc htrue hfalse hroom => next_badBool h hc htrue hfalse hroom
  | .badNull h hnull hroom => next_badNull h hnull hroom
  | .number h hc hn => (next_number h hc).trans (hn.parseNumber_eq status)
  | .badNumber h hc hn => (next_number h hc).trans (hn.parseNumber_eq status)
  | .unknown h hc hdigit => next_unknown h hc hdigit
  | .emptyArray h hend => by
    rw [next_of_stands h]
    change consumeWs _ >>= _ = _
    rw [stands_iff.1 hend]
    rfl
  | .array h hs hc hvs => by
    rw [next_of_stands h]
    change consumeWs _ >>= _ = _
    rw [stands_iff.1 hs]
    change arrayAt doubles overload status (_ :: _) = _
    rw [arrayAt]
    · exact hvs.elements_eq
    · rintro r ⟨⟩
      exact hc rfl
  | .emptyObject h hkind hend => by
    rw [next_of_stands h]
    change emptyObject _ >>= _ = _
    rw [emptyObject_eq_ok_iff.2 hkind]
    change consumeWs _ >>= _ = _
    rw [stands_iff.1 hend]
    rfl
  | .object h hkind hs hc hms => by
    rw [next_of_stands h]
    change emptyObject _ >>= _ = _
    rw [emptyObject_eq_ok_iff.2 hkind]
    change consumeWs _ >>= _ = _
    rw [stands_iff.1 hs]
    change objectAt doubles overload status _ (_ :: _) = _
    rw [objectAt]
    · exact hms.members_eq
    · rintro r ⟨⟩
      exact hc rfl

theorem WalkElements.elements_eq {status status' : CrustStatus} {list : List (JSON Double)}
    {mem r : Bytes} {v : JSON Double}
    (h : WalkElements doubles overload status list mem v status' r) :
    elements doubles overload status list mem = .ok (v, status', r) := by
  match h with
  | .cons hv hlist hcomma hvs =>
    rw [elements_of_value hv.next_eq hlist (stands_iff.1 hcomma)]
    exact hvs.elements_eq
  | .last hv hlist hend => exact elements_of_value hv.next_eq hlist (stands_iff.1 hend)
  | .error hv hlist h hcomma hend =>
    rw [elements_of_value hv.next_eq hlist (stands_iff.1 h), elementAt]
    · rintro r ⟨⟩
      exact hcomma rfl
    · rintro r ⟨⟩
      exact hend rfl

theorem WalkMembers.members_eq {status status' : CrustStatus} {obj v : JSON Double}
    {mem r : Bytes} (h : WalkMembers doubles overload status obj mem v status' r) :
    members doubles overload status obj mem = .ok (v, status', r) := by
  match h with
  | .noColon hkey h hcolon =>
    rw [JSON.members_eq, hkey.next_eq]
    change consumeWs _ >>= _ = _
    rw [stands_iff.1 h]
    change colonAt doubles overload _ _ _ (_ :: _) = _
    rw [colonAt]
    rintro r ⟨⟩
    exact hcolon rfl
  | .cons hkey hcolon hv hput hcomma hms =>
    rw [members_of_value hkey.next_eq (stands_iff.1 hcolon) hv.next_eq, hput]
    change consumeWs _ >>= _ = _
    rw [stands_iff.1 hcomma]
    exact hms.members_eq
  | .last hkey hcolon hv hput hend =>
    rw [members_of_value hkey.next_eq (stands_iff.1 hcolon) hv.next_eq, hput]
    change consumeWs _ >>= _ = _
    rw [stands_iff.1 hend]
    rfl
  | .error hkey hcolon hv hput h hcomma hend =>
    rw [members_of_value hkey.next_eq (stands_iff.1 hcolon) hv.next_eq, hput]
    change consumeWs _ >>= _ = _
    rw [stands_iff.1 h]
    change memberAt doubles overload _ _ (_ :: _) = _
    rw [memberAt]
    · rintro r ⟨⟩
      exact hcomma rfl
    · rintro r ⟨⟩
      exact hend rfl

end

theorem length_of_next {status status' : CrustStatus} {mem r : Bytes} {v : JSON Double}
    (h : next doubles overload status mem = .ok (v, status', r)) : r.length ≤ mem.length := by
  have := leaves_next doubles overload status mem
  rw [h] at this
  exact this

theorem length_emptyObject {mem r : Bytes} {obj : JSON Double}
    (h : emptyObject mem = .ok (obj, r)) : r.length ≤ mem.length := by
  have := @leaves_emptyObject Double mem
  rw [h] at this
  exact this

theorem walkElements_of_elements {status status' : CrustStatus} {list : List (JSON Double)}
    {mem r : Bytes} {v : JSON Double}
    (hnext : ∀ status v status' r, next doubles overload status mem = .ok (v, status', r) →
      Walk doubles overload status mem v status' r)
    (hrest : ∀ status list (mem' : Bytes), mem'.length < mem.length → ∀ v status' r,
      elements doubles overload status list mem' = .ok (v, status', r) →
      WalkElements doubles overload status list mem' v status' r)
    (h : elements doubles overload status list mem = .ok (v, status', r)) :
    WalkElements doubles overload status list mem v status' r := by
  rw [elements_eq] at h
  obtain ⟨⟨w, status₁, r₁⟩, hv, h⟩ := bind_eq_ok.1 h
  obtain ⟨list', hlist, h⟩ := bind_eq_ok.1 h
  obtain ⟨m, hm, h⟩ := bind_eq_ok.1 h
  obtain ⟨hlen, rfl⟩ := setNext_eq_ok_iff.1 hlist
  have hw := hnext _ _ _ _ hv
  have hshort := (length_consumeWs hm).trans (length_of_next hv)
  rw [← stands_iff] at hm
  dsimp only at h hm
  rw [elementAt.eq_def] at h
  split at h
  · exact .cons hw hlen hm (hrest _ _ _ hshort _ _ _ h)
  · cases h
    exact .last hw hlen hm
  · rename_i hcomma hend
    cases h
    obtain ⟨c, s, rfl⟩ := exists_cons_of_stands hm
    exact .error hw hlen hm (fun hc => hcomma s (by rw [hc])) fun hc => hend s (by rw [hc])

theorem walkMembers_of_members {status status' : CrustStatus} {obj v : JSON Double}
    {mem r : Bytes}
    (hnext : ∀ status v status' r, next doubles overload status mem = .ok (v, status', r) →
      Walk doubles overload status mem v status' r)
    (hvalue : ∀ (mem' : Bytes), mem'.length < mem.length → ∀ status v status' r,
      next doubles overload status mem' = .ok (v, status', r) →
      Walk doubles overload status mem' v status' r)
    (hrest : ∀ status obj (mem' : Bytes), mem'.length < mem.length → ∀ v status' r,
      members doubles overload status obj mem' = .ok (v, status', r) →
      WalkMembers doubles overload status obj mem' v status' r)
    (h : members doubles overload status obj mem = .ok (v, status', r)) :
    WalkMembers doubles overload status obj mem v status' r := by
  have hmembers := h
  rw [members_eq] at h
  obtain ⟨⟨key, status₁, r₁⟩, hkey, h⟩ := bind_eq_ok.1 h
  obtain ⟨m, hm, h⟩ := bind_eq_ok.1 h
  have hwkey := hnext _ _ _ _ hkey
  have hshort := (length_consumeWs hm).trans (length_of_next hkey)
  dsimp only at h hm
  rw [colonAt.eq_def] at h
  split at h
  · rename_i s
    rw [members_of_key hkey hm] at hmembers
    obtain ⟨⟨w, status₂, x⟩, hv, hmembers⟩ := bind_eq_ok.1 hmembers
    obtain ⟨obj', hput, hmembers⟩ := bind_eq_ok.1 hmembers
    obtain ⟨m', hm', hmembers⟩ := bind_eq_ok.1 hmembers
    rw [List.length_cons] at hshort
    have hwv := hvalue s (by omega) _ _ _ _ hv
    have hshort' := (length_consumeWs hm').trans (length_of_next hv)
    rw [← stands_iff] at hm hm'
    dsimp only at hmembers hm' hput
    rw [memberAt.eq_def] at hmembers
    split at hmembers
    · rw [List.length_cons] at hshort'
      exact .cons hwkey hm hwv hput hm' (hrest _ _ _ (by omega) _ _ _ hmembers)
    · cases hmembers
      exact .last hwkey hm hwv hput hm'
    · rename_i hcomma hend
      cases hmembers
      obtain ⟨c, s, rfl⟩ := exists_cons_of_stands hm'
      exact .error hwkey hm hwv hput hm' (fun hc => hcomma s (by rw [hc]))
        fun hc => hend s (by rw [hc])
  · rename_i hcolon
    cases h
    rw [← stands_iff] at hm
    obtain ⟨c, s, rfl⟩ := exists_cons_of_stands hm
    exact .noColon hwkey hm fun hc => hcolon s (by rw [hc])

theorem walk_of_next {status status' : CrustStatus} {mem r : Bytes} {v : JSON Double}
    (helements : ∀ status list (mem' : Bytes), mem'.length < mem.length → ∀ v status' r,
      elements doubles overload status list mem' = .ok (v, status', r) →
      WalkElements doubles overload status list mem' v status' r)
    (hmembers : ∀ status obj (mem' : Bytes), mem'.length < mem.length → ∀ v status' r,
      members doubles overload status obj mem' = .ok (v, status', r) →
      WalkMembers doubles overload status obj mem' v status' r)
    (h : next doubles overload status mem = .ok (v, status', r)) :
    Walk doubles overload status mem v status' r := by
  rw [next_eq] at h
  obtain ⟨m, hm, h⟩ := bind_eq_ok.1 h
  have hshort := length_consumeWs hm
  rw [← stands_iff] at hm
  obtain ⟨c, s, rfl⟩ := exists_cons_of_stands hm
  rw [List.length_cons] at hshort
  by_cases harray : c = 91
  · subst harray
    obtain ⟨m', hm', h⟩ := bind_eq_ok.1 h
    have hshort' := length_consumeWs hm'
    rw [← stands_iff] at hm'
    rw [arrayAt.eq_def] at h
    split at h
    · cases h
      exact .emptyArray hm hm'
    · rename_i hend
      obtain ⟨d, s', rfl⟩ := exists_cons_of_stands hm'
      exact .array hm hm' (fun hd => hend s' (by rw [hd]))
        (helements _ _ _ (by omega) _ _ _ h)
  by_cases hobject : c = 123
  · subst hobject
    obtain ⟨⟨obj, s₁⟩, hkind, h⟩ := bind_eq_ok.1 h
    obtain ⟨m', hm', h⟩ := bind_eq_ok.1 h
    have hshort' := (length_consumeWs hm').trans (length_emptyObject hkind)
    rw [← stands_iff] at hm'
    rw [emptyObject_eq_ok_iff] at hkind
    dsimp only at h hm'
    rw [objectAt.eq_def] at h
    split at h
    · cases h
      exact .emptyObject hm hkind hm'
    · rename_i hend
      obtain ⟨d, s', rfl⟩ := exists_cons_of_stands hm'
      exact .object hm hkind hm' (fun hd => hend s' (by rw [hd]))
        (hmembers _ _ _ (by omega) _ _ _ h)
  · rw [valueAt, if_neg harray, if_neg hobject] at h
    exact walk_of_scalar hm harray hobject h

/-- What the parser comes to is a walk, for a memory of any length. -/
theorem walks_of_parse (doubles : Doubles Double) (overload : Overload) (n : ℕ) :
    ∀ mem : Bytes, mem.length < n →
    (∀ status v status' r, next doubles overload status mem = .ok (v, status', r) →
      Walk doubles overload status mem v status' r) ∧
    (∀ status list v status' r,
      elements doubles overload status list mem = .ok (v, status', r) →
      WalkElements doubles overload status list mem v status' r) ∧
    ∀ status obj v status' r, members doubles overload status obj mem = .ok (v, status', r) →
      WalkMembers doubles overload status obj mem v status' r := by
  induction n with
  | zero => exact fun mem h => (Nat.not_lt_zero _ h).elim
  | succ n ih =>
    intro mem hmem
    have hshort : ∀ mem' : Bytes, mem'.length < mem.length → mem'.length < n :=
      fun mem' h => by omega
    have hnext : ∀ status v status' r, next doubles overload status mem = .ok (v, status', r) →
        Walk doubles overload status mem v status' r := fun status v status' r =>
      walk_of_next (fun status list mem' h => (ih mem' (hshort mem' h)).2.1 status list)
        fun status obj mem' h => (ih mem' (hshort mem' h)).2.2 status obj
    exact ⟨hnext, fun status list v status' r => walkElements_of_elements hnext
      fun status list mem' h => (ih mem' (hshort mem' h)).2.1 status list,
      fun status obj v status' r => walkMembers_of_members hnext
        (fun mem' h => (ih mem' (hshort mem' h)).1)
        fun status obj mem' h => (ih mem' (hshort mem' h)).2.2 status obj⟩

/-- **The parser comes to a result where there is a walk**, and to what the walk says. -/
theorem walk_iff {status status' : CrustStatus} {mem r : Bytes} {v : JSON Double} :
    Walk doubles overload status mem v status' r ↔
      next doubles overload status mem = .ok (v, status', r) :=
  ⟨Walk.next_eq, (walks_of_parse doubles overload (mem.length + 1) mem (by omega)).1 _ _ _ _⟩

end Dcap.JSON
