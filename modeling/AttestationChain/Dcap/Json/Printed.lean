import AttestationChain.Dcap.Json.Alongside
import AttestationChain.Dcap.Json.Overloads
import AttestationChain.Dcap.Json.Reads

/-!
# Dcap/Json/Printed — reading what was printed

The parts of a text are read one after another, so what is read of an array or an object is settled
by what is read of its parts (`PrintedAs.array`, `PrintedAs.object`): the elements in turn, and the
members put in turn, each under what its key is read as (`Puts`).  An array must not be too long,
and behind the brace of an object that names no kind four characters are looked at.
-/

namespace Dcap.JSON

variable {Double : Type} {doubles : Doubles Double}

/-! ## Blanks -/

theorem consumeWs_blank {b : Bytes} (hb : Blank b) (mem : Bytes) :
    consumeWs (b ++ mem) = consumeWs mem := by
  induction b with
  | nil => rfl
  | cons c b ih =>
    obtain ⟨hc, hb⟩ := List.forall_mem_cons.1 hb
    rw [List.cons_append, consumeWs, if_pos hc, ih hb]

/-- What is behind blanks, up to a character that is none. -/
theorem consumeWs_blank_cons {b : Bytes} (hb : Blank b) {c : UInt8} (hc : isSpace c = false)
    (mem : Bytes) : consumeWs (b ++ c :: mem) = .ok (c :: mem) := by
  rw [consumeWs_blank hb, consumeWs, if_neg (by simp [hc])]

theorem endsNumber_blank {b : Bytes} (hb : Blank b) {c : UInt8} (hc : endsNumber c = true)
    (mem : Bytes) : EndsNumber (b ++ c :: mem) := by
  cases b with
  | nil => exact ⟨c, mem, rfl, hc⟩
  | cons d b => exact ⟨d, b ++ c :: mem, rfl, by simp [endsNumber, hb d (by simp)]⟩

theorem reads_blank_iff {b mem r : Bytes} {v : JSON Double} (hb : Blank b) :
    Reads doubles (b ++ mem) v r ↔ Reads doubles mem v r :=
  ⟨fun h => h.of_consumeWs (consumeWs_blank hb mem).symm,
    fun h => h.of_consumeWs (consumeWs_blank hb mem)⟩

theorem readsElements_blank_iff {b mem r : Bytes} {vs : List (JSON Double)} (hb : Blank b) :
    ReadsElements doubles (b ++ mem) vs r ↔ ReadsElements doubles mem vs r :=
  ⟨fun h => h.of_consumeWs (consumeWs_blank hb mem).symm,
    fun h => h.of_consumeWs (consumeWs_blank hb mem)⟩

theorem readsMembers_blank_iff {b mem r : Bytes} {obj obj' : JSON Double} (hb : Blank b) :
    ReadsMembers doubles obj (b ++ mem) obj' r ↔ ReadsMembers doubles obj mem obj' r :=
  ⟨fun h => h.of_consumeWs (consumeWs_blank hb mem).symm,
    fun h => h.of_consumeWs (consumeWs_blank hb mem)⟩

/-! ## Texts and their readings -/

variable (doubles) in
/-- **A text that is read as a document** under a condition, with room for it in what follows, and
not at all otherwise. -/
structure PrintedAs (ok : Prop) (room : ℕ → Prop) (t : Bytes) (v : JSON Double) : Prop where
  start : ∃ c t', t = c :: t' ∧ isSpace c = false ∧ c ≠ 93
  room_of_le : ∀ n, 3 ≤ n → room n
  reads_iff : ∀ r, (∀ i, v = .integral i → EndsNumber r) → ∀ w r',
    Reads doubles (t ++ r) w r' ↔ (ok ∧ room r.length) ∧ w = v ∧ r' = r

theorem PrintedAs.ne_nil {ok : Prop} {room : ℕ → Prop} {t : Bytes} {v : JSON Double}
    (h : PrintedAs doubles ok room t v) : t ≠ [] := by
  obtain ⟨c, t', rfl, -⟩ := h.start
  exact List.cons_ne_nil c t'

theorem Reads.iff_eq {mem r : Bytes} {v : JSON Double} (h : Reads doubles mem v r) (w r') :
    Reads doubles mem w r' ↔ w = v ∧ r' = r := by
  refine ⟨fun h' => h'.unique h, ?_⟩
  rintro ⟨rfl, rfl⟩
  exact h

/-- A text that is read under a condition that holds, whatever follows. -/
theorem PrintedAs.of_reads {ok : Prop} {room : ℕ → Prop} {c : UInt8} {t : Bytes} {v : JSON Double}
    (hok : ok) (hroom : ∀ n, room n) (hspace : isSpace c = false) (hc : c ≠ 93)
    (h : ∀ r, (∀ i, v = .integral i → EndsNumber r) → Reads doubles (c :: t ++ r) v r) :
    PrintedAs doubles ok room (c :: t) v where
  start := ⟨c, t, rfl, hspace, hc⟩
  room_of_le n _ := hroom n
  reads_iff r hr w r' := by rw [and_iff_right ⟨hok, hroom _⟩, (h r hr).iff_eq]

/-! ## Keys -/

/-- The scanner gets through a text up to the quotation mark behind it, or gives up in it. -/
def ScansAlike (k : Bytes) : Prop :=
  (∃ val, ∀ r, scanString (k ++ 34 :: r) = .ok (some val, r)) ∨
    ∀ r, ∃ m, scanString (k ++ 34 :: r) = .ok (none, m)

theorem ScansAlike.prepend {k k' s : Bytes} (h : ScansAlike k)
    (hk : ∀ r, scanString (k' ++ 34 :: r) = prepend s (scanString (k ++ 34 :: r))) :
    ScansAlike k' := by
  rcases h with ⟨val, h⟩ | h
  · exact .inl ⟨s ++ val, fun r => by rw [hk, h]; rfl⟩
  · refine .inr fun r => ?_
    obtain ⟨m, hm⟩ := h r
    exact ⟨m, by rw [hk, hm]; rfl⟩

theorem isHexDigit_ne {h : UInt8} (hh : isHexDigit h = true) : h ≠ 34 ∧ h ≠ 92 := by
  refine ⟨?_, ?_⟩
  · rintro rfl
    exact absurd hh (by decide)
  · rintro rfl
    exact absurd hh (by decide)

/-- Four digits in front of a quotation mark are in front of it, or there are none. -/
theorem take_hex_cases (k : Bytes) :
    (∃ h₁ h₂ h₃ h₄ k', [h₁, h₂, h₃, h₄].all isHexDigit = true ∧ k = [h₁, h₂, h₃, h₄] ++ k') ∨
    ∀ r, ((k ++ 34 :: r).take 4).all isHexDigit = false := by
  rcases k with _ | ⟨h₁, _ | ⟨h₂, _ | ⟨h₃, _ | ⟨h₄, k⟩⟩⟩⟩
  · exact .inr fun r => rfl
  · exact .inr fun r => by simp [isHexDigit]
  · exact .inr fun r => by simp [isHexDigit]
  · exact .inr fun r => by simp [isHexDigit]
  · by_cases hhex : [h₁, h₂, h₃, h₄].all isHexDigit = true
    · exact .inl ⟨h₁, h₂, h₃, h₄, k, hhex, rfl⟩
    · exact .inr fun r => by simpa using hhex

theorem stringText_hex {hex k : Bytes} (hhex : hex.all isHexDigit = true) :
    StringText (hex ++ k) ↔ StringText k := by
  induction hex with
  | nil => rfl
  | cons h hex ih =>
    rw [List.all_cons, Bool.and_eq_true] at hhex
    obtain ⟨hquote, hescape⟩ := isHexDigit_ne hhex.1
    rw [List.cons_append, stringText_cons hquote hescape, ih hhex.2]

/-- **The text of a string is scanned alike**, whatever is behind it. -/
theorem scansAlike : ∀ {k : Bytes}, StringText k → ScansAlike k
  | [], _ => .inl ⟨[], scanString_quote⟩
  | [_], ⟨hquote, hescape⟩ => (scansAlike (k := []) trivial).prepend
      fun _ => scanString_cons hquote hescape _
  | c :: e :: k, htext => by
    by_cases hescape : c = 92
    swap
    · rw [StringText, if_neg hescape] at htext
      exact (scansAlike htext.2).prepend fun r => scanString_cons htext.1 hescape _
    rw [StringText, if_pos hescape] at htext
    subst hescape
    by_cases he : e = 117
    swap
    · exact (scansAlike htext).prepend fun r => scanString_escape he _
    subst he
    rcases take_hex_cases k with ⟨h₁, h₂, h₃, h₄, k', hhex, rfl⟩ | hnone
    · rw [stringText_hex hhex] at htext
      exact (scansAlike htext).prepend fun r => (scanString_unicode ..).trans (if_pos hhex)
    · exact .inr fun r => ⟨_, scanString_unicode_none (hnone r)⟩
termination_by k => k.length

/-- **What a key is read as**, between its quotation marks. -/
def ReadsKey (k : Bytes) (key : JSON Double) : Prop :=
  ∃ val, Spelled (k ++ [34]) (some val) [] ∧ Denotes val key

theorem ReadsKey.unique {k : Bytes} {key key' : JSON Double} (h : ReadsKey k key)
    (h' : ReadsKey k key') : key = key' := by
  obtain ⟨val, hval, hkey⟩ := h
  obtain ⟨val', hval', hkey'⟩ := h'
  cases (scanString_eq_ok_iff.2 hval).symm.trans (scanString_eq_ok_iff.2 hval')
  exact Except.ok.inj ((stringValue_eq_ok_iff.2 hkey).symm.trans (stringValue_eq_ok_iff.2 hkey'))

/-- **A key is read** as what stands between its quotation marks, whatever is behind them. -/
theorem reads_key_iff {k : Bytes} (hk : StringText k) {x r : Bytes} {key : JSON Double} :
    Reads doubles (34 :: (k ++ 34 :: x)) key r ↔ ReadsKey k key ∧ r = x := by
  simp only [reads_quote_iff, ReadsKey, ← scanString_eq_ok_iff, ← stringValue_eq_ok_iff]
  rcases scansAlike hk with ⟨val, hscan⟩ | hnone
  · rw [hscan x, hscan []]
    constructor
    · rintro ⟨val', hval, hkey⟩
      cases hval
      exact ⟨⟨val, rfl, hkey⟩, rfl⟩
    · rintro ⟨⟨val', hval, hkey⟩, rfl⟩
      cases hval
      exact ⟨val, rfl, hkey⟩
  · obtain ⟨m, hm⟩ := hnone x
    obtain ⟨m', hm'⟩ := hnone []
    rw [hm, hm']
    exact iff_of_false (fun ⟨_, h, _⟩ => by cases h) fun ⟨⟨_, h, _⟩, _⟩ => by cases h

/-- **Members put into an object**, one after another, each under what its key is read as. -/
inductive Puts : JSON Double → List (Bytes × JSON Double) → JSON Double → Prop
  | nil {obj} : Puts obj [] obj
  | cons {obj obj₁ obj' k key v members} (hkey : ReadsKey k key)
      (hput : putMember key obj v = .ok obj₁) (h : Puts obj₁ members obj') :
      Puts obj ((k, v) :: members) obj'

theorem puts_nil_iff {obj obj' : JSON Double} : Puts obj [] obj' ↔ obj' = obj := by
  constructor
  · intro h
    cases h
    rfl
  · rintro rfl
    exact .nil

theorem puts_cons_iff {obj obj' v : JSON Double} {k : Bytes}
    {members : List (Bytes × JSON Double)} :
    Puts obj ((k, v) :: members) obj' ↔ ∃ key obj₁, ReadsKey k key ∧
      putMember key obj v = .ok obj₁ ∧ Puts obj₁ members obj' := by
  constructor
  · intro h
    cases h with
    | cons hkey hput h => exact ⟨_, _, hkey, hput, h⟩
  · rintro ⟨key, obj₁, hkey, hput, h⟩
    exact .cons hkey hput h

theorem Puts.unique {obj obj' obj'' : JSON Double} {members : List (Bytes × JSON Double)}
    (h : Puts obj members obj') (h' : Puts obj members obj'') : obj' = obj'' := by
  induction h with
  | nil => exact (puts_nil_iff.1 h').symm
  | cons hkey hput _ ih =>
    obtain ⟨key, obj₁, hkey', hput', h'⟩ := puts_cons_iff.1 h'
    obtain rfl := hkey.unique hkey'
    cases hput.symm.trans hput'
    exact ih h'

/-! ## Elements -/

/-- The first of some elements, and what follows it. -/
theorem PrintedAs.elements_iff {ok : Prop} {room : ℕ → Prop} {t x : Bytes} {v : JSON Double}
    (h : PrintedAs doubles ok room t v) (hend : EndsNumber x) (vs r') :
    ReadsElements doubles (t ++ x) vs r' ↔ (ok ∧ room x.length) ∧
      ((∃ u vs', consumeWs x = .ok (44 :: u) ∧ ReadsElements doubles u vs' r' ∧ vs = v :: vs') ∨
        consumeWs x = .ok (93 :: r') ∧ vs = [v]) := by
  have hreads := h.reads_iff x fun _ _ => hend
  constructor
  · intro helements
    cases helements with
    | cons hv hcomma hrest =>
      obtain ⟨hok, rfl, rfl⟩ := (hreads _ _).1 hv
      exact ⟨hok, .inl ⟨_, _, hcomma, hrest, rfl⟩⟩
    | last hv hclose =>
      obtain ⟨hok, rfl, rfl⟩ := (hreads _ _).1 hv
      exact ⟨hok, .inr ⟨hclose, rfl⟩⟩
  · rintro ⟨hok, ⟨u, vs', hcomma, hrest, rfl⟩ | ⟨hclose, rfl⟩⟩
    · exact .cons ((hreads _ _).2 ⟨hok, rfl, rfl⟩) hcomma hrest
    · exact .last ((hreads _ _).2 ⟨hok, rfl, rfl⟩) hclose

theorem PrintedAs.of_iff {ok ok' : Prop} {room room' : ℕ → Prop} {t : Bytes} {v : JSON Double}
    (h : PrintedAs doubles ok room t v) (hok : ok' ↔ ok) (hroom : ∀ n, room' n ↔ room n) :
    PrintedAs doubles ok' room' t v where
  start := h.start
  room_of_le n hn := (hroom n).2 (h.room_of_le n hn)
  reads_iff r hr w r' := by rw [hok, hroom, h.reads_iff r hr]

section Elements

variable {text : JSON Double → Bytes} {val : JSON Double → JSON Double} {ok : JSON Double → Prop}
  {room : JSON Double → ℕ → Prop} {sep z : Bytes}

/-- **Elements are read**, if each of them is read and there is room behind the last. -/
theorem readsElements_printed (hsep : Spaced 44 sep) (hz : Blank z) (r : Bytes) :
    ∀ {list : List (JSON Double)}, list ≠ [] →
      (∀ v ∈ list, PrintedAs doubles (ok v) (room v) (text v) (val v)) →
      ∀ vs r', ReadsElements doubles (sep.intercalate (list.map text) ++ (z ++ 93 :: r)) vs r' ↔
        ((∀ v ∈ list, ok v) ∧ ∀ v ∈ list.getLast?, room v (z.length + 1 + r.length)) ∧
          vs = list.map val ∧ r' = r
  | [], hne, _, _, _ => absurd rfl hne
  | [v], _, h, vs, r' => by
    have hclose := consumeWs_blank_cons hz (c := 93) rfl r
    have hlen : (z ++ 93 :: r).length = z.length + 1 + r.length := by
      simp only [List.length_append, List.length_cons]
      omega
    rw [List.map_singleton, List.intercalate_singleton,
      (h v (by simp)).elements_iff (endsNumber_blank hz rfl r), hclose, hlen]
    simp [eq_comm, and_comm]
  | v :: v' :: list, _, h, vs, r' => by
    have hrest := readsElements_printed hsep hz r (List.cons_ne_nil v' list)
      fun w hw => h w (List.mem_cons_of_mem _ hw)
    obtain ⟨a, b, ha, hb, hab⟩ := hsep
    have hcomma := consumeWs_blank_cons ha (c := 44) rfl
    -- Behind an element that is not the last there is a comma, another one and a bracket.
    have hroom : room v (a ++ 44 :: (b ++ (sep.intercalate ((v' :: list).map text) ++
        (z ++ 93 :: r)))).length := by
      have hpos := List.length_pos_iff.2 (h v' (by simp)).ne_nil
      refine (h v (by simp)).room_of_le _ ?_
      rw [List.map_cons, intercalate_cons]
      simp only [List.length_append, List.length_cons]
      omega
    rw [intercalate_map_cons_cons, hab, List.append_assoc,
      List.append_assoc, List.append_assoc, List.cons_append,
      (h v (by simp)).elements_iff (endsNumber_blank ha rfl _), hcomma, List.forall_mem_cons, ← hab,
      and_iff_left hroom, List.getLast?_cons_cons]
    constructor
    · rintro ⟨hok, ⟨u, vs', hu, hvs', rfl⟩ | ⟨hclose, -⟩⟩
      · cases hu
        rw [readsElements_blank_iff hb, hrest] at hvs'
        obtain ⟨⟨hoks, hlast⟩, rfl, rfl⟩ := hvs'
        exact ⟨⟨⟨hok, hoks⟩, hlast⟩, rfl, rfl⟩
      · cases hclose
    · rintro ⟨⟨⟨hok, hoks⟩, hlast⟩, rfl, rfl⟩
      refine ⟨hok, .inl ⟨_, _, rfl, ?_, rfl⟩⟩
      rw [readsElements_blank_iff hb, hrest]
      exact ⟨⟨hoks, hlast⟩, rfl, rfl⟩

end Elements

/-! ## Members -/

/-- The first of some members, and what follows it. -/
theorem PrintedAs.members_iff {ok : Prop} {room : ℕ → Prop} {k colon t x : Bytes}
    {v obj : JSON Double} (h : PrintedAs doubles ok room t v) (hk : StringText k)
    (hcolon : Spaced 58 colon) (hend : EndsNumber x) (obj' r') :
    ReadsMembers doubles obj (member k colon t ++ x) obj' r' ↔ (ok ∧ room x.length) ∧
      ∃ key obj₁, ReadsKey k key ∧ putMember key obj v = .ok obj₁ ∧
        ((∃ u, consumeWs x = .ok (44 :: u) ∧ ReadsMembers doubles obj₁ u obj' r') ∨
          consumeWs x = .ok (125 :: r') ∧ obj' = obj₁) := by
  obtain ⟨a, b, ha, hb, rfl⟩ := hcolon
  have hmember : member k (a ++ 58 :: b) t ++ x =
      34 :: (k ++ 34 :: (a ++ 58 :: (b ++ (t ++ x)))) := by
    simp [member]
  have hmem := consumeWs_blank_cons ha (c := 58) rfl (b ++ (t ++ x))
  have hreads := h.reads_iff x fun _ _ => hend
  rw [hmember]
  constructor
  · intro hmembers
    obtain ⟨key, y, u, w, x', obj₁, hread, hc, hw, hput, hrest⟩ := hmembers.head
    obtain ⟨hkey, rfl⟩ := (reads_key_iff hk).1 hread
    cases hmem.symm.trans hc
    obtain ⟨hok, rfl, rfl⟩ := (hreads _ _).1 ((reads_blank_iff hb).1 hw)
    exact ⟨hok, key, obj₁, hkey, hput, hrest⟩
  · rintro ⟨hok, key, obj₁, hkey, hput, hrest⟩
    have hread : Reads doubles (34 :: (k ++ 34 :: (a ++ 58 :: (b ++ (t ++ x))))) key
        (a ++ 58 :: (b ++ (t ++ x))) := (reads_key_iff hk).2 ⟨hkey, rfl⟩
    have hv : Reads doubles (b ++ (t ++ x)) v x :=
      (reads_blank_iff hb).2 ((hreads _ _).2 ⟨hok, rfl, rfl⟩)
    rcases hrest with ⟨u, hcomma, hrest⟩ | ⟨hclose, rfl⟩
    · exact .cons hread hmem hv hput hcomma hrest
    · exact .last hread hmem hv hput hclose

section Members

variable {text : JSON Double → Bytes} {val : JSON Double → JSON Double} {ok : JSON Double → Prop}
  {room : JSON Double → ℕ → Prop} {colon sep z : Bytes}

/-- **Members are read** and put in turn, if each value is read and there is room behind the
last. -/
theorem readsMembers_printed (hcolon : Spaced 58 colon) (hsep : Spaced 44 sep) (hz : Blank z)
    (r : Bytes) : ∀ {members : List (Bytes × JSON Double)} (obj), members ≠ [] →
      (∀ kv ∈ members, StringText kv.1) →
      (∀ kv ∈ members, PrintedAs doubles (ok kv.2) (room kv.2) (text kv.2) (val kv.2)) →
      ∀ obj' r', ReadsMembers doubles obj
          (sep.intercalate (members.map fun kv => member kv.1 colon (text kv.2)) ++ (z ++ 125 :: r))
          obj' r' ↔
        ((∀ kv ∈ members, ok kv.2) ∧
            ∀ kv ∈ members.getLast?, room kv.2 (z.length + 1 + r.length)) ∧
          Puts obj (members.map fun kv => (kv.1, val kv.2)) obj' ∧ r' = r
  | [], _, hne, _, _, _, _ => absurd rfl hne
  | [kv], obj, _, hkeys, h, obj', r' => by
    have hclose := consumeWs_blank_cons hz (c := 125) rfl r
    have hlen : (z ++ 125 :: r).length = z.length + 1 + r.length := by
      simp only [List.length_append, List.length_cons]
      omega
    rw [List.map_singleton, List.map_singleton, List.intercalate_singleton,
      (h kv (by simp)).members_iff (hkeys kv (by simp)) hcolon (endsNumber_blank hz rfl r), hclose,
      hlen, puts_cons_iff]
    simp only [puts_nil_iff]
    constructor
    · rintro ⟨⟨hok, hroom⟩, key, obj₁, hkey, hput, ⟨u, hu, -⟩ | ⟨hu, rfl⟩⟩
      · cases hu
      · cases hu
        exact ⟨⟨by simpa using hok, by simpa using hroom⟩, ⟨key, _, hkey, hput, rfl⟩, rfl⟩
    · rintro ⟨⟨hok, hroom⟩, ⟨key, _, hkey, hput, rfl⟩, rfl⟩
      exact ⟨⟨hok kv (by simp), hroom kv rfl⟩, key, _, hkey, hput, .inr ⟨rfl, rfl⟩⟩
  | kv :: kv' :: members, obj, _, hkeys, h, obj', r' => by
    have hrest := fun obj => readsMembers_printed hcolon hsep hz r obj
      (List.cons_ne_nil kv' members) (fun w hw => hkeys w (List.mem_cons_of_mem _ hw))
      fun w hw => h w (List.mem_cons_of_mem _ hw)
    obtain ⟨a, b, ha, hb, hab⟩ := hsep
    have hcomma := consumeWs_blank_cons ha (c := 44) rfl
    simp only [List.map_cons] at hrest ⊢
    -- Behind a member that is not the last there is a comma, another one and a brace.
    have hroom : room kv.2 (a ++ 44 :: (b ++ (sep.intercalate (member kv'.1 colon (text kv'.2) ::
        members.map fun kv => member kv.1 colon (text kv.2)) ++ (z ++ 125 :: r)))).length := by
      refine (h kv (by simp)).room_of_le _ ?_
      rw [intercalate_cons, member]
      simp only [List.length_append, List.length_cons]
      omega
    rw [List.intercalate_cons_cons, hab, List.append_assoc, List.append_assoc, List.append_assoc,
      List.cons_append, (h kv (by simp)).members_iff (hkeys kv (by simp)) hcolon
        (endsNumber_blank ha rfl _), hcomma, List.forall_mem_cons, ← hab, and_iff_left hroom,
      List.getLast?_cons_cons, puts_cons_iff]
    constructor
    · rintro ⟨hok, key, obj₁, hkey, hput, ⟨u, hu, hmembers⟩ | ⟨hclose, -⟩⟩
      · cases hu
        rw [readsMembers_blank_iff hb, hrest] at hmembers
        obtain ⟨⟨hoks, hlast⟩, hputs, rfl⟩ := hmembers
        exact ⟨⟨⟨hok, hoks⟩, hlast⟩, ⟨key, obj₁, hkey, hput, hputs⟩, rfl⟩
      · cases hclose
    · rintro ⟨⟨⟨hok, hoks⟩, hlast⟩, ⟨key, obj₁, hkey, hput, hputs⟩, rfl⟩
      refine ⟨hok, key, obj₁, hkey, hput, .inl ⟨_, rfl, ?_⟩⟩
      rw [readsMembers_blank_iff hb, hrest]
      exact ⟨⟨hoks, hlast⟩, hputs, rfl⟩

end Members

/-! ## Arrays and objects -/

/-- A kind of object as it is written, and its empty object. -/
inductive IsKind : Bytes → JSON Double → Prop
  | plain : IsKind [] (.object [])
  | fio : IsKind (ascii "fio") (.fioObject [] [])
  | flat : IsKind (ascii "flat") (.flatObject [] [])

/-- **The kind that is written is the kind that is read.** -/
theorem IsKind.emptyObject_iff {kind mem x r : Bytes} {obj obj' : JSON Double} {c : UInt8}
    (h : IsKind kind obj) (hws : consumeWs mem = .ok (c :: x)) (hc : c ≠ 102) :
    emptyObject (kind ++ mem) = .ok (obj', r) ↔
      (kind = [] → 4 ≤ mem.length) ∧ obj' = obj ∧ r = mem := by
  cases h with
  | plain =>
    rw [List.nil_append, emptyObject_of_consumeWs hws hc]
    simp only [forall_const]
    exact ⟨fun ⟨hobj, hr, hroom⟩ => ⟨hroom, hobj, hr⟩, fun ⟨hroom, hobj, hr⟩ => ⟨hobj, hr, hroom⟩⟩
  | fio =>
    have hread : emptyObject (ascii "fio" ++ mem) = .ok ((.fioObject [] [] : JSON Double), mem) :=
      emptyObject_eq_ok_iff.2 .fio
    rw [hread, and_iff_right fun hnil => nomatch hnil]
    exact ⟨fun h => by cases h; exact ⟨rfl, rfl⟩, by rintro ⟨rfl, rfl⟩; rfl⟩
  | flat =>
    have hread : emptyObject (ascii "flat" ++ mem) =
        .ok ((.flatObject [] [] : JSON Double), mem) :=
      emptyObject_eq_ok_iff.2 .flat
    rw [hread, and_iff_right fun hnil => nomatch hnil]
    exact ⟨fun h => by cases h; exact ⟨rfl, rfl⟩, by rintro ⟨rfl, rfl⟩; rfl⟩

theorem IsKind.reads_iff {kind mem x r : Bytes} {obj v : JSON Double} {c : UInt8}
    (h : IsKind kind obj) (hws : consumeWs mem = .ok (c :: x)) (hc : c ≠ 102) :
    Reads doubles (123 :: (kind ++ mem)) v r ↔ (kind = [] → 4 ≤ mem.length) ∧
      ((v = obj ∧ consumeWs mem = .ok (125 :: r)) ∨ ReadsMembers doubles obj mem v r) := by
  simp only [reads_brace_iff, h.emptyObject_iff hws hc]
  constructor
  · rintro ⟨obj, mem', ⟨hroom, rfl, rfl⟩, hrest⟩
    exact ⟨hroom, hrest⟩
  · rintro ⟨hroom, hrest⟩
    exact ⟨_, _, ⟨hroom, rfl, rfl⟩, hrest⟩

section Containers

variable {text : JSON Double → Bytes} {val : JSON Double → JSON Double} {ok : JSON Double → Prop}
  {room : JSON Double → ℕ → Prop} {a colon sep z : Bytes}

theorem between_append (open_ close : UInt8) (a sep z : Bytes) (parts : List Bytes) (r : Bytes) :
    between open_ close a sep z parts ++ r =
      open_ :: (a ++ (sep.intercalate parts ++ (z ++ close :: r))) := by
  simp only [between, List.cons_append, List.append_assoc, List.nil_append]

/-- **An array is read**, if its elements are and `Array[index++]` counts to its end. -/
theorem PrintedAs.array (ha : Blank a) (hsep : Spaced 44 sep) (hz : Blank z)
    {list : List (JSON Double)}
    (h : ∀ v ∈ list, PrintedAs doubles (ok v) (room v) (text v) (val v)) :
    PrintedAs doubles (list.length < uint32Size ∧ ∀ v ∈ list, ok v)
      (fun n => ∀ v ∈ list.getLast?, room v (z.length + 1 + n))
      (between 91 93 a sep z (list.map text)) (.array (list.map val)) where
  start := ⟨91, _, rfl, rfl, by decide⟩
  room_of_le n hn v hv := (h v (List.mem_of_getLast? hv)).room_of_le _ (by omega)
  reads_iff r _ w r' := by
    rw [between_append, reads_bracket_iff]
    cases list with
    | nil =>
      have hclose : consumeWs (a ++ (sep.intercalate ([].map text) ++ (z ++ 93 :: r))) =
          .ok (93 :: r) := by
        rw [consumeWs_blank ha]
        exact consumeWs_blank_cons hz rfl r
      rw [hclose]
      constructor
      · rintro (⟨rfl, hr⟩ | ⟨vs, rfl, -, hvs⟩)
        · cases hr
          exact ⟨by simp [uint32Size], rfl, rfl⟩
        · obtain ⟨c, x, hws, hc, -⟩ := hvs.start
          cases hclose.symm.trans hws
          exact (hc rfl).elim
      · rintro ⟨-, rfl, rfl⟩
        exact .inl ⟨rfl, rfl⟩
    | cons v list =>
      have hopen :
          ∃ c x, consumeWs (a ++ (sep.intercalate ((v :: list).map text) ++ (z ++ 93 :: r))) =
            .ok (c :: x) ∧ c ≠ 93 := by
        obtain ⟨c, x, hx, hspace, hc⟩ := (h v (by simp)).start
        rw [consumeWs_blank ha, List.map_cons, intercalate_cons, hx]
        exact ⟨c, _, consumeWs_blank_cons blank_nil hspace _, hc⟩
      obtain ⟨c, x, hx, hc⟩ := hopen
      constructor
      · rintro (⟨rfl, hr⟩ | ⟨vs, rfl, hlist, hvs⟩)
        · cases hx.symm.trans hr
          exact (hc rfl).elim
        · rw [readsElements_blank_iff ha,
            readsElements_printed hsep hz r (List.cons_ne_nil v list) h] at hvs
          obtain ⟨⟨hok, hlast⟩, rfl, rfl⟩ := hvs
          exact ⟨⟨⟨(List.length_map val).symm.trans_lt hlist, hok⟩, hlast⟩, rfl, rfl⟩
      · rintro ⟨⟨⟨hlist, hok⟩, hlast⟩, rfl, rfl⟩
        refine .inr ⟨_, rfl, (List.length_map val).trans_lt hlist, ?_⟩
        rw [readsElements_blank_iff ha, readsElements_printed hsep hz _ (List.cons_ne_nil v list) h]
        exact ⟨⟨hok, hlast⟩, rfl, rfl⟩

/-- **An object is read**, if its values are, its keys can be put in turn, and there are four
characters behind its brace or its kind stands there. -/
theorem PrintedAs.object {kind : Bytes} {obj w : JSON Double} {okKeys : Prop}
    {members : List (Bytes × JSON Double)} (hkind : IsKind kind obj) (ha : Blank a)
    (hcolon : Spaced 58 colon) (hsep : Spaced 44 sep) (hz : Blank z)
    (hkeys : ∀ kv ∈ members, StringText kv.1)
    (h : ∀ kv ∈ members, PrintedAs doubles (ok kv.2) (room kv.2) (text kv.2) (val kv.2))
    (hputs : ∀ obj', Puts obj (members.map fun kv => (kv.1, val kv.2)) obj' ↔ okKeys ∧ obj' = w) :
    PrintedAs doubles ((∀ kv ∈ members, ok kv.2) ∧ okKeys)
      (fun n => (members = [] → kind = [] → 3 ≤ a.length + z.length + n) ∧
        ∀ kv ∈ members.getLast?, room kv.2 (z.length + 1 + n))
      (between 123 125 (kind ++ a) sep z (members.map fun kv => member kv.1 colon (text kv.2)))
      w where
  start := ⟨123, _, rfl, rfl, by decide⟩
  room_of_le n hn := ⟨fun _ _ => by omega,
    fun kv hkv => (h kv (List.mem_of_getLast? hkv)).room_of_le _ (by omega)⟩
  reads_iff r _ w' r' := by
    rw [between_append, List.append_assoc]
    cases members with
    | nil =>
      have hclose : consumeWs (a ++ (sep.intercalate ([].map fun kv : Bytes × JSON Double =>
          member kv.1 colon (text kv.2)) ++ (z ++ 125 :: r))) = .ok (125 :: r) := by
        rw [consumeWs_blank ha]
        exact consumeWs_blank_cons hz rfl r
      have hw := hputs w'
      rw [List.map_nil, puts_nil_iff] at hw
      rw [hkind.reads_iff hclose (by decide), hclose, hw]
      simp only [List.map_nil, List.intercalate_nil, List.nil_append, List.length_append,
        List.length_cons, List.not_mem_nil, false_implies, implies_true, true_and,
        List.getLast?_nil, forall_const]
      constructor
      · rintro ⟨hroom, ⟨⟨hok, rfl⟩, hr⟩ | hmembers⟩
        · cases hr
          exact ⟨⟨hok, fun hnil => by have := hroom hnil; omega, by simp⟩, rfl, rfl⟩
        · obtain ⟨c, x, hws, -, hc⟩ := hmembers.start
          cases hclose.symm.trans hws
          exact (hc rfl).elim
      · rintro ⟨⟨hok, hroom, -⟩, rfl, rfl⟩
        exact ⟨fun hnil => by have := hroom hnil; omega, .inl ⟨⟨hok, rfl⟩, rfl⟩⟩
    | cons kv members =>
      have hopen : ∃ x, consumeWs (a ++ (sep.intercalate ((kv :: members).map fun kv =>
          member kv.1 colon (text kv.2)) ++ (z ++ 125 :: r))) = .ok (34 :: x) := by
        rw [consumeWs_blank ha, List.map_cons, intercalate_cons]
        exact ⟨_, rfl⟩
      obtain ⟨x, hx⟩ := hopen
      have hroom : 4 ≤ (a ++ (sep.intercalate ((kv :: members).map fun kv =>
          member kv.1 colon (text kv.2)) ++ (z ++ 125 :: r))).length := by
        obtain ⟨b, b', -, -, hb⟩ := hcolon
        rw [List.map_cons, intercalate_cons, member, hb]
        simp only [List.length_append, List.length_cons]
        omega
      rw [hkind.reads_iff hx (by decide), hx, readsMembers_blank_iff ha,
        readsMembers_printed hcolon hsep hz r obj (List.cons_ne_nil kv members) hkeys h, hputs,
        and_iff_right fun _ => hroom, or_iff_right (by rintro ⟨-, hclose⟩; cases hclose),
        and_iff_right fun hnil => absurd hnil (List.cons_ne_nil kv members)]
      constructor
      · rintro ⟨⟨hok, hlast⟩, ⟨hokKeys, rfl⟩, rfl⟩
        exact ⟨⟨⟨hok, hokKeys⟩, hlast⟩, rfl, rfl⟩
      · rintro ⟨⟨⟨hok, hokKeys⟩, hlast⟩, rfl, rfl⟩
        exact ⟨⟨hok, hlast⟩, ⟨hokKeys, rfl⟩, rfl⟩

end Containers

/-! ## Texts -/

/-- What is printed of an array or an object is read in either overload, under its condition and if
there is room for it. -/
theorem PrintedAs.next_iff {ok : Prop} {room : ℕ → Prop} {t : Bytes} {v : JSON Double}
    (h : PrintedAs doubles ok room t v)
    (hroot : ∀ i, v ≠ .integral i) (overload : Overload) (r : Bytes) (w : JSON Double) :
    (next doubles overload .success (t ++ r) >>= fun p => .ok (p.1, p.2.1)) = .ok (w, .success) ↔
      (ok ∧ room r.length) ∧ w = v := by
  have hreads := h.reads_iff r fun i hi => (hroot i hi).elim
  constructor
  · intro hnext
    obtain ⟨⟨w', status, r'⟩, hread, hnext⟩ := bind_eq_ok.1 hnext
    cases hnext
    obtain ⟨hok, rfl, rfl⟩ := (hreads _ _).1 (next_eq_ok_iff.1 hread)
    exact ⟨hok, rfl⟩
  · rintro ⟨hok, rfl⟩
    rw [next_eq_ok_iff.2 ((hreads _ _).2 ⟨hok, rfl, rfl⟩)]
    rfl

/-- What is loaded of a text that was printed. -/
theorem PrintedAs.load_iff {ok : Prop} {room : ℕ → Prop} {t : Bytes} {v : JSON Double}
    (h : PrintedAs doubles ok room t v) (hroot : ∀ i, v ≠ .integral i) (w : JSON Double) :
    load doubles t = .ok (w, .success) ↔ (ok ∧ room 1) ∧ w = v := by
  rw [load_eq doubles h.ne_nil]
  exact h.next_iff hroot .string [0] w

/-- What is loaded of bytes that were printed, with others behind them. -/
theorem PrintedAs.loadBytes_iff {ok : Prop} {room : ℕ → Prop} {t : Bytes} {v : JSON Double}
    (h : PrintedAs doubles ok room t v) (hroot : ∀ i, v ≠ .integral i) (after : Bytes)
    (w : JSON Double) :
    loadBytes doubles (t ++ after) t.length = .ok (w, .success) ↔
      (ok ∧ room after.length) ∧ w = v := by
  rw [loadBytes_eq doubles (List.length_pos_iff.2 h.ne_nil).ne']
  exact h.next_iff hroot .bytes after w

end Dcap.JSON
