import AttestationChain.Dcap.Json.Walks

/-!
# Dcap/Json/Reads — what the parser reads without an error

`Reads mem v r` are the readings that keep the status: a value `v` off the front of `mem`, with `r`
behind it, by what the parser makes of each token.  They are the walks without an error
(`reads_iff_walk`), so it is just what the parser does (`next_eq_ok_iff`).
-/

namespace Dcap.JSON

variable {Double : Type} (doubles : Doubles Double)

mutual

/-- **A value read off the front of a memory**, and what is behind it. -/
inductive Reads : Bytes → JSON Double → Bytes → Prop
  | string {mem r val v r'} (h : consumeWs mem = .ok (34 :: r))
      (hscan : scanString r = .ok (some val, r')) (hv : stringValue val = .ok v) : Reads mem v r'
  | yes {mem r} (h : consumeWs mem = .ok (ascii "true" ++ r)) : Reads mem (.boolean true) r
  | no {mem r} (h : consumeWs mem = .ok (ascii "false" ++ r)) : Reads mem (.boolean false) r
  | null {mem r} (h : consumeWs mem = .ok (ascii "null" ++ r)) : Reads mem .null r
  | integral {mem c r val d r' i} (h : consumeWs mem = .ok (c :: r)) (hc : isDigit c ∨ c = 45)
      (hscan : scanWhile isNumberChar (c :: r) = .ok (val, d, r')) (hend : endsNumber d = true)
      (hdot : 46 ∉ val) (hi : stol val = .ok i) : Reads mem (.integral i) (d :: r')
  | floating {mem c r x r'} (h : consumeWs mem = .ok (c :: r)) (hc : isDigit c ∨ c = 45)
      (hnumber : ∀ status, parseNumber doubles status (c :: r) = .ok (.floating x, status, r')) :
      Reads mem (.floating x) r'
  | emptyArray {mem r r'} (h : consumeWs mem = .ok (91 :: r))
      (hend : consumeWs r = .ok (93 :: r')) :
      Reads mem (.array []) r'
  | array {mem r c r' list r''} (h : consumeWs mem = .ok (91 :: r))
      (hws : consumeWs r = .ok (c :: r')) (hc : c ≠ 93)
      (helements : ReadsElements (c :: r') list r'') (hlist : list.length < uint32Size) :
      Reads mem (.array list) r''
  | emptyObject {mem r obj r' r''} (h : consumeWs mem = .ok (123 :: r))
      (hkind : emptyObject r = .ok (obj, r')) (hend : consumeWs r' = .ok (125 :: r'')) :
      Reads mem obj r''
  | object {mem r obj r' c x obj' y} (h : consumeWs mem = .ok (123 :: r))
      (hkind : emptyObject r = .ok (obj, r')) (hws : consumeWs r' = .ok (c :: x)) (hc : c ≠ 125)
      (hmembers : ReadsMembers obj (c :: x) obj' y) : Reads mem obj' y

/-- The elements left of an array, with its closing bracket. -/
inductive ReadsElements : Bytes → List (JSON Double) → Bytes → Prop
  | cons {mem v r r' list r''} (h : Reads mem v r) (hcomma : consumeWs r = .ok (44 :: r'))
      (hrest : ReadsElements r' list r'') : ReadsElements mem (v :: list) r''
  | last {mem v r r'} (h : Reads mem v r) (hend : consumeWs r = .ok (93 :: r')) :
      ReadsElements mem [v] r'

/-- The members left of an object, with its closing brace. -/
inductive ReadsMembers : JSON Double → Bytes → JSON Double → Bytes → Prop
  | cons {obj mem key r r' v x x' obj' obj'' y} (hkey : Reads mem key r)
      (hcolon : consumeWs r = .ok (58 :: r')) (h : Reads r' v x)
      (hput : putMember key obj v = .ok obj') (hcomma : consumeWs x = .ok (44 :: x'))
      (hrest : ReadsMembers obj' x' obj'' y) : ReadsMembers obj mem obj'' y
  | last {obj mem key r r' v x x' obj'} (hkey : Reads mem key r)
      (hcolon : consumeWs r = .ok (58 :: r')) (h : Reads r' v x)
      (hput : putMember key obj v = .ok obj') (hend : consumeWs x = .ok (125 :: x')) :
      ReadsMembers obj mem obj' x'

end

variable {doubles} {overload : Overload}

theorem valueAt_number {status : CrustStatus} {c : UInt8} {mem : Bytes} (h : isDigit c ∨ c = 45) :
    valueAt doubles overload status (c :: mem) = parseNumber doubles status (c :: mem) := by
  obtain ⟨hquote, hbracket, hbrace, hbool, hnull⟩ := isNumberChar_of h
  rw [valueAt, if_neg hbracket, if_neg hbrace, scalar, if_neg hquote, if_neg hbool, if_neg hnull,
    if_pos h]

/-! ## Readings are walks -/

theorem walk_of_parseNumber {status : CrustStatus} {mem r r' : Bytes} {c : UInt8} {v : JSON Double}
    (h : consumeWs mem = .ok (c :: r)) (hc : isDigit c ∨ c = 45)
    (hnumber : parseNumber doubles status (c :: r) = .ok (v, status, r')) (hv : v ≠ .null) :
    Walk doubles overload status mem v status r' := by
  rcases parseNumber_eq_ok_iff.1 hnumber with ⟨hn, -⟩ | ⟨-, hnull, -⟩
  · exact .number (stands_iff.2 h) hc hn
  · exact (hv hnull).elim

theorem parseNumber_integral (status : CrustStatus) {mem val r : Bytes} {d : UInt8} {i : ℤ}
    (hscan : scanWhile isNumberChar mem = .ok (val, d, r)) (hend : endsNumber d = true)
    (hdot : 46 ∉ val) (hi : stol val = .ok i) :
    parseNumber doubles status mem = .ok (.integral i, status, d :: r) := by
  obtain ⟨hval, -, rfl⟩ := scanWhile_eq_ok_iff.1 hscan
  exact (NumberAt.integer hval hend hdot hi).parseNumber_eq status

mutual

/-- A reading is a walk that keeps the status. -/
theorem Reads.walk {mem r : Bytes} {v : JSON Double} (h : Reads doubles mem v r)
    (overload : Overload) (status : CrustStatus) : Walk doubles overload status mem v status r :=
  match h with
  | .string h hscan hv =>
    .string (stands_iff.2 h) (scanString_eq_ok_iff.1 hscan) (stringValue_eq_ok_iff.1 hv)
  | .yes h => .word (stands_iff.2 h) .yes
  | .no h => .word (stands_iff.2 h) .no
  | .null h => .word (stands_iff.2 h) .null
  | .integral h hc hscan hend hdot hi =>
    walk_of_parseNumber h hc (parseNumber_integral status hscan hend hdot hi) (by simp)
  | .floating h hc hnumber => walk_of_parseNumber h hc (hnumber status) (by simp)
  | .emptyArray h hend => .emptyArray (stands_iff.2 h) (stands_iff.2 hend)
  | .array h hws hc helements hlist =>
    .array (stands_iff.2 h) (stands_iff.2 hws) hc (helements.walk overload status [] hlist)
  | .emptyObject h hkind hend =>
    .emptyObject (stands_iff.2 h) (emptyObject_eq_ok_iff.1 hkind) (stands_iff.2 hend)
  | .object h hkind hws hc hmembers =>
    .object (stands_iff.2 h) (emptyObject_eq_ok_iff.1 hkind) (stands_iff.2 hws) hc
      (hmembers.walk overload status)

theorem ReadsElements.walk {mem r : Bytes} {vs : List (JSON Double)}
    (h : ReadsElements doubles mem vs r) (overload : Overload) (status : CrustStatus)
    (list : List (JSON Double)) (hlist : (list ++ vs).length < uint32Size) :
    WalkElements doubles overload status list mem (.array (list ++ vs)) status r :=
  match h with
  | @ReadsElements.cons _ _ _ v _ _ vs' _ h hcomma hrest => by
    have hlist' : (list ++ [v] ++ vs').length < uint32Size := by simpa using hlist
    have hvs := hrest.walk overload status (list ++ [v]) hlist'
    rw [List.append_assoc, List.singleton_append] at hvs
    refine .cons (h.walk overload status) ?_ (stands_iff.2 hcomma) hvs
    simp only [List.length_append, List.length_cons] at hlist
    omega
  | .last h hend =>
    .last (h.walk overload status) (by simpa using hlist) (stands_iff.2 hend)

theorem ReadsMembers.walk {mem r : Bytes} {obj obj' : JSON Double}
    (h : ReadsMembers doubles obj mem obj' r) (overload : Overload) (status : CrustStatus) :
    WalkMembers doubles overload status obj mem obj' status r :=
  match h with
  | .cons hkey hcolon h hput hcomma hrest =>
    .cons (hkey.walk overload status) (stands_iff.2 hcolon) (h.walk overload status) hput
      (stands_iff.2 hcomma) (hrest.walk overload status)
  | .last hkey hcolon h hput hend =>
    .last (hkey.walk overload status) (stands_iff.2 hcolon) (h.walk overload status) hput
      (stands_iff.2 hend)

end

/-- **The parser reads what is read**, and keeps the status. -/
theorem Reads.next_eq {mem r : Bytes} {v : JSON Double} (h : Reads doubles mem v r)
    (status : CrustStatus) : next doubles overload status mem = .ok (v, status, r) :=
  (h.walk overload status).next_eq

/-! ## Walks without an error are readings -/

theorem NumberAt.reads {mem r r' : Bytes} {c : UInt8} {v : JSON Double}
    (hn : NumberAt doubles (c :: r) (some v) r') (h : consumeWs mem = .ok (c :: r))
    (hc : isDigit c ∨ c = 45) : Reads doubles mem v r' := by
  have hnumber : ∀ status, parseNumber doubles status (c :: r) = .ok (v, status, r') :=
    fun status => hn.parseNumber_eq status
  generalize hm : c :: r = m at hn
  generalize ho : some v = o at hn
  cases hn with
  | integer hw hd hdot hi =>
    cases ho
    refine .integral h hc ?_ hd hdot hi
    rw [hm, scanWhile_append hw (isNumberChar_of_endsNumber hd)]
  | fraction =>
    cases ho
    exact .floating h hc hnumber
  | exponent =>
    cases ho
    exact .floating h hc hnumber
  | bad => cases ho
  | badExponent => cases ho

theorem Word.reads {mem w r : Bytes} {v : JSON Double} (hw : Word w v)
    (h : consumeWs mem = .ok (w ++ r)) : Reads doubles mem v r := by
  cases hw with
  | yes => exact .yes h
  | no => exact .no h
  | null => exact .null h

mutual

/-- A walk that keeps success meets no error. -/
theorem Walk.reads {status status' : CrustStatus} {mem r : Bytes} {v : JSON Double}
    (h : Walk doubles overload status mem v status' r) (hs : status' = .success) :
    status = .success ∧ Reads doubles mem v r :=
  match h with
  | .string h hscan hv => ⟨hs, .string (stands_iff.1 h) (scanString_eq_ok_iff.2 hscan)
      (stringValue_eq_ok_iff.2 hv)⟩
  | .badString _ _ => nomatch hs
  | .word h hw => ⟨hs, hw.reads (stands_iff.1 h)⟩
  | .badBool _ _ _ _ _ => nomatch hs
  | .badNull _ _ _ => nomatch hs
  | .number h hc hn => ⟨hs, hn.reads (stands_iff.1 h) hc⟩
  | .badNumber _ _ _ => nomatch hs
  | .unknown _ _ _ => nomatch hs
  | .emptyArray h hend => ⟨hs, .emptyArray (stands_iff.1 h) (stands_iff.1 hend)⟩
  | .array h hws hc hvs => by
    obtain ⟨hstatus, vs, rfl, hvs, hlist⟩ := hvs.reads hs
    exact ⟨hstatus, .array (stands_iff.1 h) (stands_iff.1 hws) hc hvs hlist⟩
  | .emptyObject h hkind hend =>
    ⟨hs, .emptyObject (stands_iff.1 h) (emptyObject_eq_ok_iff.2 hkind) (stands_iff.1 hend)⟩
  | .object h hkind hws hc hms => by
    obtain ⟨hstatus, hms⟩ := hms.reads hs
    exact ⟨hstatus, .object (stands_iff.1 h) (emptyObject_eq_ok_iff.2 hkind) (stands_iff.1 hws) hc
      hms⟩

theorem WalkElements.reads {status status' : CrustStatus} {list : List (JSON Double)}
    {mem r : Bytes} {v : JSON Double}
    (h : WalkElements doubles overload status list mem v status' r) (hs : status' = .success) :
    status = .success ∧ ∃ vs, v = .array (list ++ vs) ∧ ReadsElements doubles mem vs r ∧
      (list ++ vs).length < uint32Size :=
  match h with
  | .cons (v := v) hv hlist hcomma hvs => by
    obtain ⟨hstatus', vs, heq, hvs, hlen⟩ := hvs.reads hs
    obtain ⟨hstatus, hv⟩ := hv.reads hstatus'
    rw [List.append_assoc, List.singleton_append] at heq hlen
    exact ⟨hstatus, v :: vs, heq, .cons hv (stands_iff.1 hcomma) hvs, hlen⟩
  | .last hv hlist hend => by
    obtain ⟨hstatus, hv⟩ := hv.reads hs
    exact ⟨hstatus, [_], rfl, .last hv (stands_iff.1 hend), by simpa using hlist⟩
  | .error _ _ _ _ _ => nomatch hs

theorem WalkMembers.reads {status status' : CrustStatus} {obj v : JSON Double} {mem r : Bytes}
    (h : WalkMembers doubles overload status obj mem v status' r) (hs : status' = .success) :
    status = .success ∧ ReadsMembers doubles obj mem v r :=
  match h with
  | .noColon _ _ _ => nomatch hs
  | .cons hkey hcolon hv hput hcomma hms => by
    obtain ⟨hstatus₂, hms⟩ := hms.reads hs
    obtain ⟨hstatus₁, hv⟩ := hv.reads hstatus₂
    obtain ⟨hstatus, hkey⟩ := hkey.reads hstatus₁
    exact ⟨hstatus, .cons hkey (stands_iff.1 hcolon) hv hput (stands_iff.1 hcomma) hms⟩
  | .last hkey hcolon hv hput hend => by
    obtain ⟨hstatus₁, hv⟩ := hv.reads hs
    obtain ⟨hstatus, hkey⟩ := hkey.reads hstatus₁
    exact ⟨hstatus, .last hkey (stands_iff.1 hcolon) hv hput (stands_iff.1 hend)⟩
  | .error _ _ _ _ _ _ _ => nomatch hs

end

/-- **The readings are the walks without an error**, in either overload. -/
theorem reads_iff_walk {mem r : Bytes} {v : JSON Double} :
    Reads doubles mem v r ↔ Walk doubles overload .success mem v .success r :=
  ⟨fun h => h.walk overload .success, fun h => (h.reads rfl).2⟩

/-- **The parser succeeds where a value is read.** -/
theorem next_eq_ok_iff {mem r : Bytes} {v : JSON Double} :
    next doubles overload .success mem = .ok (v, .success, r) ↔ Reads doubles mem v r :=
  walk_iff.symm.trans reads_iff_walk.symm

theorem parsed_inj {v w : JSON Double} {status status' : CrustStatus} {r r' : Bytes}
    (h : (.ok (v, status, r) : Except Fault (Parsed Double)) = .ok (w, status', r')) :
    v = w ∧ status = status' ∧ r = r' := by
  cases h
  exact ⟨rfl, rfl, rfl⟩

theorem load_success_iff {s : Bytes} (hs : s ≠ []) {v : JSON Double} :
    load doubles s = .ok (v, .success) ↔ ∃ r, Reads doubles (s ++ [0]) v r := by
  rw [load_eq doubles hs]
  constructor
  · intro h
    obtain ⟨⟨w, status, r⟩, hnext, h⟩ := bind_eq_ok.1 h
    cases h
    exact ⟨r, next_eq_ok_iff.1 hnext⟩
  · rintro ⟨r, hr⟩
    rw [hr.next_eq]
    rfl

/-! ## Readings and their text -/

/-- **A value is read in one way.** -/
theorem Reads.unique {mem r r' : Bytes} {v v' : JSON Double} (h : Reads doubles mem v r)
    (h' : Reads doubles mem v' r') : v = v' ∧ r = r' := by
  have hnext : next doubles .string .success mem = .ok (v, .success, r) := h.next_eq .success
  have hnext' : next doubles .string .success mem = .ok (v', .success, r') := h'.next_eq .success
  have hinj := parsed_inj (hnext.symm.trans hnext')
  exact ⟨hinj.1, hinj.2.2⟩

/-- A value is read from what is behind its blanks. -/
theorem Reads.of_consumeWs {mem mem' r : Bytes} {v : JSON Double} (h : Reads doubles mem v r)
    (hws : consumeWs mem' = consumeWs mem) : Reads doubles mem' v r := by
  have hnext : next doubles .string .success mem = .ok (v, .success, r) := h.next_eq .success
  refine next_eq_ok_iff.1 (?_ : next doubles .string .success mem' = _)
  rw [← hnext, JSON.next_eq, JSON.next_eq, hws]

theorem ReadsElements.of_consumeWs {mem mem' r : Bytes} {vs : List (JSON Double)}
    (h : ReadsElements doubles mem vs r) (hws : consumeWs mem' = consumeWs mem) :
    ReadsElements doubles mem' vs r := by
  cases h with
  | cons h hcomma hrest => exact .cons (h.of_consumeWs hws) hcomma hrest
  | last h hend => exact .last (h.of_consumeWs hws) hend

theorem ReadsMembers.of_consumeWs {mem mem' r : Bytes} {obj obj' : JSON Double}
    (h : ReadsMembers doubles obj mem obj' r) (hws : consumeWs mem' = consumeWs mem) :
    ReadsMembers doubles obj mem' obj' r := by
  cases h with
  | cons hkey hcolon h hput hcomma hrest =>
    exact .cons (hkey.of_consumeWs hws) hcolon h hput hcomma hrest
  | last hkey hcolon h hput hend => exact .last (hkey.of_consumeWs hws) hcolon h hput hend

/-- A value starts with no closing bracket. -/
theorem Reads.start {mem r : Bytes} {v : JSON Double} (h : Reads doubles mem v r) :
    ∃ c r', consumeWs mem = .ok (c :: r') ∧ c ≠ 93 ∧ c ≠ 125 := by
  have hnumber : ∀ {c : UInt8}, isDigit c ∨ c = 45 → c ≠ 93 ∧ c ≠ 125 := by
    intro c hc
    refine ⟨?_, ?_⟩
    · rintro rfl
      exact absurd hc (by decide)
    · rintro rfl
      exact absurd hc (by decide)
  cases h with
  | string h => exact ⟨_, _, h, by decide, by decide⟩
  | yes h => exact ⟨_, _, h, by decide, by decide⟩
  | no h => exact ⟨_, _, h, by decide, by decide⟩
  | null h => exact ⟨_, _, h, by decide, by decide⟩
  | integral h hc => exact ⟨_, _, h, hnumber hc⟩
  | floating h hc => exact ⟨_, _, h, hnumber hc⟩
  | emptyArray h => exact ⟨_, _, h, by decide, by decide⟩
  | array h => exact ⟨_, _, h, by decide, by decide⟩
  | emptyObject h => exact ⟨_, _, h, by decide, by decide⟩
  | object h => exact ⟨_, _, h, by decide, by decide⟩

theorem ReadsElements.start {mem r : Bytes} {vs : List (JSON Double)}
    (h : ReadsElements doubles mem vs r) :
    ∃ c r', consumeWs mem = .ok (c :: r') ∧ c ≠ 93 ∧ c ≠ 125 := by
  cases h with
  | cons h => exact h.start
  | last h => exact h.start

theorem ReadsMembers.start {mem r : Bytes} {obj obj' : JSON Double}
    (h : ReadsMembers doubles obj mem obj' r) :
    ∃ c r', consumeWs mem = .ok (c :: r') ∧ c ≠ 93 ∧ c ≠ 125 := by
  cases h with
  | cons hkey => exact hkey.start
  | last hkey => exact hkey.start

/-- No kind stands at the start of what is something else. -/
theorem emptyObject_of_consumeWs {mem r r' : Bytes} {c : UInt8} {obj : JSON Double}
    (h : consumeWs mem = .ok (c :: r)) (hc : c ≠ 102) :
    emptyObject mem = .ok (obj, r') ↔ obj = .object [] ∧ r' = mem ∧ 4 ≤ mem.length := by
  have hkind : ∀ w, ¬ 102 :: w <+: mem := by
    rintro w ⟨t, rfl⟩
    rw [List.cons_append, consumeWs, if_neg (by decide)] at h
    cases h
    exact hc rfl
  rw [emptyObject_eq_ok_iff]
  constructor
  · intro h
    generalize hm : mem = m at h
    cases h with
    | fio => exact (hkind _ ⟨r', hm.symm⟩).elim
    | flat => exact (hkind _ ⟨r', hm.symm⟩).elim
    | plain _ _ hroom => exact ⟨rfl, rfl, hroom⟩
  · rintro ⟨rfl, rfl, hroom⟩
    exact .plain (hkind _) (hkind _) hroom

/-- The first of the elements, and what follows it. -/
theorem ReadsElements.head {mem r : Bytes} {vs : List (JSON Double)}
    (h : ReadsElements doubles mem vs r) : ∃ v t vs', Reads doubles mem v t ∧ vs = v :: vs' ∧
      ((∃ u, consumeWs t = .ok (44 :: u) ∧ ReadsElements doubles u vs' r) ∨
        consumeWs t = .ok (93 :: r) ∧ vs' = []) := by
  cases h with
  | cons h hcomma hrest => exact ⟨_, _, _, h, rfl, .inl ⟨_, hcomma, hrest⟩⟩
  | last h hend => exact ⟨_, _, _, h, rfl, .inr ⟨hend, rfl⟩⟩

/-- The first of the members, and what follows it. -/
theorem ReadsMembers.head {mem r : Bytes} {obj obj' : JSON Double}
    (h : ReadsMembers doubles obj mem obj' r) : ∃ key t u v x obj₁, Reads doubles mem key t ∧
      consumeWs t = .ok (58 :: u) ∧ Reads doubles u v x ∧ putMember key obj v = .ok obj₁ ∧
      ((∃ y, consumeWs x = .ok (44 :: y) ∧ ReadsMembers doubles obj₁ y obj' r) ∨
        consumeWs x = .ok (125 :: r) ∧ obj' = obj₁) := by
  cases h with
  | cons hkey hcolon h hput hcomma hrest =>
    exact ⟨_, _, _, _, _, _, hkey, hcolon, h, hput, .inl ⟨_, hcomma, hrest⟩⟩
  | last hkey hcolon h hput hend =>
    exact ⟨_, _, _, _, _, _, hkey, hcolon, h, hput, .inr ⟨hend, rfl⟩⟩

/-- Elements, behind their bracket. -/
theorem ReadsElements.reads {mem r : Bytes} {vs : List (JSON Double)}
    (h : ReadsElements doubles mem vs r) (hvs : vs.length < uint32Size) :
    Reads doubles (91 :: mem) (.array vs) r := by
  obtain ⟨c, r', hws, hc, -⟩ := h.start
  exact .array rfl hws hc (h.of_consumeWs (by rw [hws, consumeWs_idem hws])) hvs

/-- Members, behind their brace and kind. -/
theorem ReadsMembers.reads {mem mem' r : Bytes} {obj obj' : JSON Double}
    (h : ReadsMembers doubles obj mem' obj' r) (hkind : emptyObject mem = .ok (obj, mem')) :
    Reads doubles (123 :: mem) obj' r := by
  obtain ⟨c, r', hws, -, hc⟩ := h.start
  exact .object rfl hkind hws hc (h.of_consumeWs (by rw [hws, consumeWs_idem hws]))

/-! ## What a first character tells -/

theorem reads_quote_iff {mem r : Bytes} {v : JSON Double} : Reads doubles (34 :: mem) v r ↔
    ∃ val, scanString mem = .ok (some val, r) ∧ stringValue val = .ok v := by
  refine ⟨fun h => ?_, fun ⟨val, hscan, hv⟩ => .string rfl hscan hv⟩
  cases h with
  | string h hscan hv =>
    cases h
    exact ⟨_, hscan, hv⟩
  | yes h => cases h
  | no h => cases h
  | null h => cases h
  | integral h hc =>
    cases h
    exact absurd hc (by decide)
  | floating h hc =>
    cases h
    exact absurd hc (by decide)
  | emptyArray h => cases h
  | array h => cases h
  | emptyObject h => cases h
  | object h => cases h

theorem reads_bracket_iff {mem r : Bytes} {v : JSON Double} : Reads doubles (91 :: mem) v r ↔
    (v = .array [] ∧ consumeWs mem = .ok (93 :: r)) ∨
      ∃ vs, v = .array vs ∧ vs.length < uint32Size ∧ ReadsElements doubles mem vs r := by
  refine ⟨fun h => ?_, ?_⟩
  · cases h with
    | string h => cases h
    | yes h => cases h
    | no h => cases h
    | null h => cases h
    | integral h hc =>
      cases h
      exact absurd hc (by decide)
    | floating h hc =>
      cases h
      exact absurd hc (by decide)
    | emptyArray h hend =>
      cases h
      exact .inl ⟨rfl, hend⟩
    | array h hws hc helements hlist =>
      cases h
      exact .inr ⟨_, rfl, hlist, helements.of_consumeWs (by rw [hws, consumeWs_idem hws])⟩
    | emptyObject h => cases h
    | object h => cases h
  · rintro (⟨rfl, hend⟩ | ⟨vs, rfl, hlist, hvs⟩)
    · exact .emptyArray rfl hend
    · exact hvs.reads hlist

theorem reads_brace_iff {mem r : Bytes} {v : JSON Double} : Reads doubles (123 :: mem) v r ↔
    ∃ obj mem', emptyObject mem = .ok (obj, mem') ∧
      ((v = obj ∧ consumeWs mem' = .ok (125 :: r)) ∨ ReadsMembers doubles obj mem' v r) := by
  refine ⟨fun h => ?_, ?_⟩
  · cases h with
    | string h => cases h
    | yes h => cases h
    | no h => cases h
    | null h => cases h
    | integral h hc =>
      cases h
      exact absurd hc (by decide)
    | floating h hc =>
      cases h
      exact absurd hc (by decide)
    | emptyArray h => cases h
    | array h => cases h
    | emptyObject h hkind hend =>
      cases h
      exact ⟨_, _, hkind, .inl ⟨rfl, hend⟩⟩
    | object h hkind hws hc hmembers =>
      cases h
      exact ⟨_, _, hkind, .inr (hmembers.of_consumeWs (by rw [hws, consumeWs_idem hws]))⟩
  · rintro ⟨obj, mem', hkind, ⟨rfl, hend⟩ | hmembers⟩
    · exact .emptyObject rfl hkind hend
    · exact hmembers.reads hkind

/-- An object that names no kind. -/
theorem reads_plainBrace_iff {mem x r : Bytes} {c : UInt8} {v : JSON Double}
    (hws : consumeWs mem = .ok (c :: x)) (hc : c ≠ 102) :
    Reads doubles (123 :: mem) v r ↔ 4 ≤ mem.length ∧
      ((v = .object [] ∧ consumeWs mem = .ok (125 :: r)) ∨
        ReadsMembers doubles (.object []) mem v r) := by
  simp only [reads_brace_iff, emptyObject_of_consumeWs hws hc]
  constructor
  · rintro ⟨obj, mem', ⟨rfl, rfl, hroom⟩, h⟩
    exact ⟨hroom, h⟩
  · rintro ⟨hroom, h⟩
    exact ⟨_, _, ⟨rfl, rfl, hroom⟩, h⟩

end Dcap.JSON
