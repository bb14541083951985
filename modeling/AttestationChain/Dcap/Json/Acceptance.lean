import AttestationChain.Dcap.Json.Totality
import AttestationChain.Dcap.Json.WellFormed

/-!
# Dcap/Json/Acceptance — what is accepted, and what should be

A well-formed text is accepted if each of its strings has a value, its keys and its arrays are short
enough, there is room behind its braces, and it is no number alone (`Strict.reads`, `Strict.fits`).
Of the other texts those are accepted that are empty or start with what the parser takes for a value
(`accepts_wellFormed_iff`).
-/

namespace Dcap.JSON

variable {Double : Type} {doubles : Doubles Double}

/-- **A string the parser gets by with**, by whether it is a key: one that is is escaped, so its
length has to fit a counter of 32 bits. -/
def Fits (key : Bool) (val : Bytes) : Prop :=
  TagFits val ∧ (key = true → Tagged val ∨ val.length < uint32Size)

/-- **What the parser gets by with**: `memcmp` looks at so many characters behind a brace, and the
elements of an array are counted with 32 bits. -/
def parserDemands (room : ℕ) : Demands := ⟨Fits, room, (· < uint32Size)⟩

/-! ## Well-formed texts are read -/

theorem endsNumber_of_skipBlanks {t r : Bytes} {c : UInt8} (h : skipBlanks t = c :: r)
    (hc : endsNumber c = true) : EndsNumber t := by
  cases t with
  | nil => cases h
  | cons d t =>
    by_cases hd : isBlank d
    · exact ⟨d, t, rfl, by simp [endsNumber, isSpace_of_isBlank hd]⟩
    · rw [skipBlanks, List.dropWhile_cons_of_neg hd] at h
      cases h
      exact ⟨c, r, rfl, hc⟩

/-- An integer is read in front of what ends it. -/
theorem IsInteger.reads {w r : Bytes} (h : IsInteger w) (hr : EndsNumber r) :
    Reads doubles (w ++ r) (.integral (integerValue w)) r :=
  h.isDigits.reads h.2.1 h.2.2 hr

/-- A value starts with no blank and no closing bracket. -/
theorem Strict.start {P : Demands} {s r : Bytes} (h : Strict P s r) :
    ∃ c s', s = c :: s' ∧ isSpace c = false ∧ c ≠ 93 ∧ c ≠ 125 := by
  cases h with
  | word hw =>
    simp only [List.mem_cons, List.not_mem_nil, or_false] at hw
    rcases hw with rfl | rfl | rfl
    · exact ⟨_, _, rfl, by decide, by decide, by decide⟩
    · exact ⟨_, _, rfl, by decide, by decide, by decide⟩
    · exact ⟨_, _, rfl, by decide, by decide, by decide⟩
  | integer hw =>
    obtain ⟨c, w', rfl, hc⟩ := hw.isDigits.head
    refine ⟨c, _, rfl, isSpace_of_number hc, ?_, ?_⟩
    · rintro rfl
      exact absurd hc (by decide)
    · rintro rfl
      exact absurd hc (by decide)
  | string => exact ⟨_, _, rfl, by decide, by decide, by decide⟩
  | emptyArray => exact ⟨_, _, rfl, by decide, by decide, by decide⟩
  | array => exact ⟨_, _, rfl, by decide, by decide, by decide⟩
  | emptyObject => exact ⟨_, _, rfl, by decide, by decide, by decide⟩
  | object => exact ⟨_, _, rfl, by decide, by decide, by decide⟩

theorem StrictElements.start {P : Demands} {n : ℕ} {s r : Bytes} (h : StrictElements P n s r) :
    ∃ c t, consumeWs s = .ok (c :: t) ∧ c ≠ 93 := by
  have hstart : ∀ {t}, Strict P (skipBlanks s) t → ∃ c t, consumeWs s = .ok (c :: t) ∧ c ≠ 93 := by
    intro t hv
    obtain ⟨c, s', hs, hspace, hc, -⟩ := hv.start
    exact ⟨c, s', consumeWs_of_skipBlanks hs hspace, hc⟩
  cases h with
  | last hv => exact hstart hv
  | cons hv => exact hstart hv

/-- A well-formed member starts with a quote. -/
theorem StrictMembers.start {P : Demands} {s r : Bytes} (h : StrictMembers P s r) :
    ∃ t, consumeWs s = .ok (34 :: t) := by
  cases h with
  | last hquote => exact ⟨_, consumeWs_of_skipBlanks hquote rfl⟩
  | cons hquote => exact ⟨_, consumeWs_of_skipBlanks hquote rfl⟩

/-- A key that is short enough is put. -/
theorem putMember_of_fits {val : Bytes} {key : JSON Double} (h : stringValue val = .ok key)
    (hval : Fits true val) (map : List (Bytes × JSON Double)) (v : JSON Double) :
    ∃ map', putMember key (.object map) v = .ok (.object map') := by
  obtain ⟨name, hname⟩ := (toString_ok_iff h).2 (hval.2 rfl)
  exact ⟨mapSet name v map, by rw [putMember, hname]; rfl⟩

mutual

/-- **A well-formed value is read**, if it is what the parser gets by with and nothing follows a
number at once. -/
theorem Strict.reads {s r : Bytes} (h : Strict (parserDemands 4) s r)
    (hr : ∀ w, IsInteger w → s = w ++ r → EndsNumber r) : ∃ v, Reads doubles s v r :=
  match h with
  | .word hw => by
    simp only [List.mem_cons, List.not_mem_nil, or_false] at hw
    rcases hw with rfl | rfl | rfl
    · exact ⟨_, .yes rfl⟩
    · exact ⟨_, .no rfl⟩
    · exact ⟨_, .null rfl⟩
  | .integer hw => ⟨_, hw.reads (hr _ hw rfl)⟩
  | .string h hP => by
    obtain ⟨v, hv⟩ := (stringValue_ok_iff _).2 hP.1
    exact ⟨v, .string rfl h.scanString_eq hv⟩
  | .emptyArray h => ⟨_, .emptyArray rfl (consumeWs_of_skipBlanks h rfl)⟩
  | .array (n := n) h hn => by
    obtain ⟨vs, hlen, hvs⟩ := h.reads
    exact ⟨_, hvs.reads (hlen ▸ hn : vs.length < uint32Size)⟩
  | .emptyObject h hroom => by
    have hend := consumeWs_of_skipBlanks h rfl
    exact ⟨_, (reads_plainBrace_iff hend (by decide)).2 ⟨hroom, .inl ⟨rfl, hend⟩⟩⟩
  | .object h hroom => by
    obtain ⟨t, ht⟩ := h.start
    obtain ⟨obj, hobj⟩ := h.reads []
    exact ⟨obj, (reads_plainBrace_iff ht (by decide)).2 ⟨hroom, .inr hobj⟩⟩

theorem StrictElements.reads {n : ℕ} {s r : Bytes} (h : StrictElements (parserDemands 4) n s r) :
    ∃ vs : List (JSON Double), vs.length = n ∧ ReadsElements doubles s vs r :=
  match h with
  | .last hv hend => by
    obtain ⟨v, hread⟩ := hv.reads fun _ _ _ => endsNumber_of_skipBlanks hend rfl
    exact ⟨[v], rfl, .last (hread.of_consumeWs (consumeWs_skipBlanks s).symm)
      (consumeWs_of_skipBlanks hend rfl)⟩
  | .cons hv hcomma hrest => by
    obtain ⟨v, hread⟩ := hv.reads fun _ _ _ => endsNumber_of_skipBlanks hcomma rfl
    obtain ⟨vs, hlen, hvs⟩ := hrest.reads
    exact ⟨v :: vs, congrArg (· + 1) hlen, .cons (hread.of_consumeWs (consumeWs_skipBlanks s).symm)
      (consumeWs_of_skipBlanks hcomma rfl) hvs⟩

theorem StrictMembers.reads {s r : Bytes} (h : StrictMembers (parserDemands 4) s r)
    (map : List (Bytes × JSON Double)) : ∃ obj, ReadsMembers doubles (.object map) s obj r :=
  match h with
  | .last (w := w) hquote hkey hP hcolon hv hend => by
    obtain ⟨key, hval⟩ := (stringValue_ok_iff _).2 hP.1
    obtain ⟨v, hread⟩ := hv.reads fun _ _ _ => endsNumber_of_skipBlanks hend rfl
    obtain ⟨map', hput⟩ := putMember_of_fits hval hP map v
    exact ⟨.object map',
      .last (.string (consumeWs_of_skipBlanks hquote rfl) hkey.scanString_eq hval)
      (consumeWs_of_skipBlanks hcolon rfl) (hread.of_consumeWs (consumeWs_skipBlanks w).symm) hput
      (consumeWs_of_skipBlanks hend rfl)⟩
  | .cons (w := w) hquote hkey hP hcolon hv hcomma hrest => by
    obtain ⟨key, hval⟩ := (stringValue_ok_iff _).2 hP.1
    obtain ⟨v, hread⟩ := hv.reads fun _ _ _ => endsNumber_of_skipBlanks hcomma rfl
    obtain ⟨map', hput⟩ := putMember_of_fits hval hP map v
    obtain ⟨obj, hobj⟩ := hrest.reads map'
    exact ⟨obj, .cons (.string (consumeWs_of_skipBlanks hquote rfl) hkey.scanString_eq hval)
      (consumeWs_of_skipBlanks hcolon rfl) (hread.of_consumeWs (consumeWs_skipBlanks w).symm) hput
      (consumeWs_of_skipBlanks hcomma rfl) hobj⟩

end

/-! ## Well-formed texts that are read fit -/

/-- A key that was put had a length that fits. -/
theorem fits_of_putMember {val : Bytes} {key obj obj' v : JSON Double}
    (h : stringValue val = .ok key) (hput : putMember key obj v = .ok obj') : Fits true val := by
  refine ⟨(stringValue_ok_iff val).1 ⟨key, h⟩, fun _ => (toString_ok_iff h).1 ?_⟩
  obtain ⟨name, hname, -⟩ := bind_eq_ok.1 hput
  exact ⟨name, hname⟩

theorem consumeWs_skipBlanks_append {s : Bytes} (h : skipBlanks s ≠ []) (t : Bytes) :
    consumeWs (skipBlanks s ++ t) = consumeWs (s ++ t) := by
  rw [← skipBlanks_append_of_ne h, consumeWs_skipBlanks]

theorem consumeWs_append_of_skipBlanks {s r : Bytes} {c : UInt8} (h : skipBlanks s = c :: r)
    (hc : isSpace c = false) (t : Bytes) : consumeWs (s ++ t) = .ok (c :: (r ++ t)) :=
  consumeWs_of_skipBlanks (skipBlanks_append h t) hc

/-- A key is the string that stands there. -/
theorem Reads.key {s t val u r x : Bytes} {key : JSON Double} (h : Reads doubles (s ++ x) key r)
    (hquote : skipBlanks s = 34 :: t) (hkey : Literal t val u) :
    r = u ++ x ∧ stringValue val = .ok key := by
  have hread : Reads doubles (34 :: (t ++ x)) key r := by
    rw [← skipBlanks_append hquote]
    exact h.of_consumeWs (consumeWs_skipBlanks (s ++ x))
  obtain ⟨val', hscan, hval⟩ := reads_quote_iff.1 hread
  rw [(hkey.append x).scanString_eq] at hscan
  cases hscan
  exact ⟨rfl, hval⟩

/-- What is behind the text is room as well. -/
theorem room_of_append {s x : Bytes} (h : 4 ≤ (s ++ x).length) : 4 - x.length ≤ s.length := by
  rw [List.length_append] at h
  omega

mutual

/-- **A well-formed value that is read** is what the parser gets by with, and is read to its end. -/
theorem Strict.fits {P : Demands} {s r x r' : Bytes} {v : JSON Double} (h : Strict P s r)
    (hread : Reads doubles (s ++ x) v r')
    (hr : ∀ w, IsInteger w → s = w ++ r → EndsNumber (r ++ x)) :
    r' = r ++ x ∧ Strict (parserDemands (4 - x.length)) s r :=
  match h with
  | .word hw => by
    refine ⟨?_, .word hw⟩
    simp only [List.mem_cons, List.not_mem_nil, or_false] at hw
    rcases hw with rfl | rfl | rfl
    · exact (hread.unique (.yes rfl)).2
    · exact (hread.unique (.no rfl)).2
    · exact (hread.unique (.null rfl)).2
  | .integer hw => by
    rw [List.append_assoc] at hread
    exact ⟨(hread.unique (hw.reads (hr _ hw rfl))).2, .integer hw⟩
  | .string h hP => by
    rw [List.cons_append] at hread
    obtain ⟨val, hscan, hval⟩ := reads_quote_iff.1 hread
    rw [(h.append x).scanString_eq] at hscan
    cases hscan
    exact ⟨rfl, .string h ⟨(stringValue_ok_iff _).1 ⟨_, hval⟩, by simp⟩⟩
  | .emptyArray h =>
    ⟨(hread.unique (.emptyArray rfl (consumeWs_append_of_skipBlanks h rfl x))).2, .emptyArray h⟩
  | .array h hn => by
    rw [List.cons_append] at hread
    rcases reads_bracket_iff.1 hread with ⟨-, hend⟩ | ⟨vs, -, hlist, hvs⟩
    · obtain ⟨c, t, ht, hc⟩ := h.start
      rw [consumeWs_append ht] at hend
      cases hend
      exact (hc rfl).elim
    · obtain ⟨hr', hlen, hfits⟩ := h.fits hvs
      exact ⟨hr', .array hfits (hlen ▸ hlist)⟩
  | .emptyObject h _ => by
    have hend := consumeWs_append_of_skipBlanks h rfl x
    rw [List.cons_append] at hread
    obtain ⟨hroom, ⟨-, hend'⟩ | hmembers⟩ := (reads_plainBrace_iff hend (by decide)).1 hread
    · cases hend.symm.trans hend'
      exact ⟨rfl, .emptyObject h (room_of_append hroom)⟩
    · obtain ⟨c, t, hws, -, hc⟩ := hmembers.start
      cases hend.symm.trans hws
      exact (hc rfl).elim
  | .object h _ => by
    rw [List.cons_append] at hread
    obtain ⟨t, ht⟩ := (h.append x).start
    obtain ⟨hroom, ⟨-, hend⟩ | hmembers⟩ := (reads_plainBrace_iff ht (by decide)).1 hread
    · cases ht.symm.trans hend
    · obtain ⟨hr', hfits⟩ := h.fits hmembers
      exact ⟨hr', .object hfits (room_of_append hroom)⟩

theorem StrictElements.fits {P : Demands} {n : ℕ} {s r x r' : Bytes} {vs : List (JSON Double)}
    (h : StrictElements P n s r) (hread : ReadsElements doubles (s ++ x) vs r') :
    r' = r ++ x ∧ vs.length = n ∧ StrictElements (parserDemands (4 - x.length)) n s r :=
  match h with
  | .last hv hend => by
    obtain ⟨v, t, vs', hv', rfl, hnext⟩ := hread.head
    obtain ⟨rfl, hv⟩ := hv.fits (hv'.of_consumeWs (consumeWs_skipBlanks_append hv.ne_nil x))
      fun _ _ _ => endsNumber_of_skipBlanks (skipBlanks_append hend x) rfl
    rw [consumeWs_append_of_skipBlanks hend rfl x] at hnext
    rcases hnext with ⟨u, hcomma, -⟩ | ⟨hend', rfl⟩
    · cases hcomma
    · cases hend'
      exact ⟨rfl, rfl, .last hv hend⟩
  | .cons hv hcomma hrest => by
    obtain ⟨v, t, vs', hv', rfl, hnext⟩ := hread.head
    obtain ⟨rfl, hv⟩ := hv.fits (hv'.of_consumeWs (consumeWs_skipBlanks_append hv.ne_nil x))
      fun _ _ _ => endsNumber_of_skipBlanks (skipBlanks_append hcomma x) rfl
    rw [consumeWs_append_of_skipBlanks hcomma rfl x] at hnext
    rcases hnext with ⟨u, hcomma', hvs'⟩ | ⟨hend, -⟩
    · cases hcomma'
      obtain ⟨hr, hlen, hrest⟩ := hrest.fits hvs'
      exact ⟨hr, congrArg (· + 1) hlen, .cons hv hcomma hrest⟩
    · cases hend

theorem StrictMembers.fits {P : Demands} {s r x r' : Bytes} {obj obj' : JSON Double}
    (h : StrictMembers P s r) (hread : ReadsMembers doubles obj (s ++ x) obj' r') :
    r' = r ++ x ∧ StrictMembers (parserDemands (4 - x.length)) s r :=
  match h with
  | .last hquote hkey hP hcolon hv hend => by
    obtain ⟨key, t, u, v, y, obj₁, hkey', hcolon', hread, hput, hnext⟩ := hread.head
    obtain ⟨rfl, hval⟩ := hkey'.key hquote hkey
    rw [consumeWs_append_of_skipBlanks hcolon rfl x] at hcolon'
    cases hcolon'
    obtain ⟨rfl, hv⟩ := hv.fits (hread.of_consumeWs (consumeWs_skipBlanks_append hv.ne_nil x))
      fun _ _ _ => endsNumber_of_skipBlanks (skipBlanks_append hend x) rfl
    rw [consumeWs_append_of_skipBlanks hend rfl x] at hnext
    rcases hnext with ⟨y, hcomma, -⟩ | ⟨hend', -⟩
    · cases hcomma
    · cases hend'
      exact ⟨rfl, .last hquote hkey (fits_of_putMember hval hput) hcolon hv hend⟩
  | .cons hquote hkey hP hcolon hv hcomma hrest => by
    obtain ⟨key, t, u, v, y, obj₁, hkey', hcolon', hread, hput, hnext⟩ := hread.head
    obtain ⟨rfl, hval⟩ := hkey'.key hquote hkey
    rw [consumeWs_append_of_skipBlanks hcolon rfl x] at hcolon'
    cases hcolon'
    obtain ⟨rfl, hv⟩ := hv.fits (hread.of_consumeWs (consumeWs_skipBlanks_append hv.ne_nil x))
      fun _ _ _ => endsNumber_of_skipBlanks (skipBlanks_append hcomma x) rfl
    rw [consumeWs_append_of_skipBlanks hcomma rfl x] at hnext
    rcases hnext with ⟨z, hcomma', hrest'⟩ | ⟨hend, -⟩
    · cases hcomma'
      obtain ⟨hr, hrest⟩ := hrest.fits hrest'
      exact ⟨hr, .cons hquote hkey (fits_of_putMember hval hput) hcolon hv hcomma hrest⟩
    · cases hend

end

/-! ## Texts -/

/-- A text that `JSON::Load` takes. -/
def Accepted (doubles : Doubles Double) (s : Bytes) : Prop :=
  ∃ v, load doubles s = .ok (v, .success)

/-- A text that is a number alone runs to the NUL, which ends no number. -/
theorem not_reads_integer {s r : Bytes} {v : JSON Double} (h : IsInteger (skipBlanks s)) :
    ¬ Reads doubles (s ++ [0]) v r := by
  intro hread
  obtain ⟨c, w, hw, hc⟩ := h.isDigits.head
  have hws : consumeWs (s ++ [0]) = .ok (skipBlanks s ++ [0]) := by
    rw [← consumeWs_skipBlanks_append h.ne_nil, hw, List.cons_append, consumeWs,
      if_neg (by simp [isSpace_of_number hc])]
  have hnumber : next doubles .string .success (s ++ [0]) = .ok (.null, .jsonNumberError, []) := by
    rw [next_eq, hws, hw]
    change valueAt doubles .string .success (c :: (w ++ [0])) = _
    rw [valueAt_number hc, ← List.cons_append, ← hw, parseNumber_eq,
      scanWhile_append h.isDigits.all_isNumberChar (by decide)]
    rfl
  rw [hread.next_eq] at hnumber
  cases hnumber

theorem endsNumber_of_text {s r : Bytes} (hend : skipBlanks r = [])
    (hs : ¬ IsInteger (skipBlanks s))
    {w : Bytes} (hw : IsInteger w) (heq : skipBlanks s = w ++ r) : EndsNumber (r ++ [0]) := by
  cases r with
  | nil =>
    rw [List.append_nil] at heq
    exact (hs (heq ▸ hw)).elim
  | cons c r =>
    refine ⟨c, r ++ [0], rfl, ?_⟩
    by_cases hc : isBlank c
    · simp [endsNumber, isSpace_of_isBlank hc]
    · rw [skipBlanks, List.dropWhile_cons_of_neg hc] at hend
      cases hend

/-- **The grammar is accepted** where a text is well-formed, is what the parser gets by with and is
no number alone, or is not well-formed, not empty, and does not start with what is taken for a
value. -/
theorem accepts_wellFormed_iff (doubles : Doubles Double) (s : Bytes) :
    (Accepted doubles s ↔ WellFormed s) ↔
      (TextOf (parserDemands 3) s ∧ ¬ IsInteger (skipBlanks s)) ∨
        (¬ WellFormed s ∧ s ≠ [] ∧ ¬ StartsWithValue doubles s) := by
  by_cases hwf : WellFormed s
  · obtain ⟨r, hstrict, hend⟩ := id hwf
    have hs : s ≠ [] := by
      rintro rfl
      exact hstrict.ne_nil rfl
    have haccepted : Accepted doubles s ↔ ∃ v r, Reads doubles (s ++ [0]) v r :=
      exists_congr fun v => load_success_iff hs
    rw [iff_true_right hwf, haccepted, or_iff_left fun h => h.1 hwf]
    constructor
    · rintro ⟨v, r', hread⟩
      have hs : ¬ IsInteger (skipBlanks s) := fun h => not_reads_integer h hread
      have hfits := hstrict.fits
        (hread.of_consumeWs (consumeWs_skipBlanks_append hstrict.ne_nil [0]))
        fun w hw heq => endsNumber_of_text hend hs hw heq
      exact ⟨⟨r, hfits.2, hend⟩, hs⟩
    · rintro ⟨⟨r', hfits, hend'⟩, hs⟩
      obtain ⟨v, hread⟩ : ∃ v, Reads doubles (skipBlanks s ++ [0]) v (r' ++ [0]) :=
        (hfits.append [0]).reads fun w hw heq => endsNumber_of_text hend' hs hw
          (List.append_cancel_right (heq.trans (List.append_assoc ..).symm))
      exact ⟨v, _, hread.of_consumeWs (consumeWs_skipBlanks_append hstrict.ne_nil [0]).symm⟩
  · have hfits : ¬ TextOf (parserDemands 3) s := fun ⟨r, h, hend⟩ =>
      hwf ⟨r, h.mono ⟨fun _ _ _ => trivial, Nat.zero_le 3, fun _ _ => trivial⟩, hend⟩
    rw [iff_false_right hwf, or_iff_right fun h => hfits h.1, and_iff_right hwf]
    by_cases hs : s = []
    · subst hs
      exact iff_of_false (fun h => h ⟨.null, rfl⟩) fun h => h.1 rfl
    · rw [and_iff_right hs, StartsWithValue, not_iff_not]
      exact exists_congr fun v => (load_success_iff hs).trans (exists_congr fun r => reads_iff_walk)

/-- A number alone. -/
theorem not_accepts_wellFormed : ¬ ∀ s, Accepted plainDoubles s ↔ WellFormed s := by
  intro h
  have hinteger : IsInteger (ascii "1") :=
    ⟨⟨ascii "1", .inl rfl, by decide, by decide, by decide⟩, by decide, by decide⟩
  obtain ⟨v, hv⟩ := (h (ascii "1")).2 ⟨[], .integer hinteger, rfl⟩
  have hload : load plainDoubles (ascii "1") = .ok (.null, .jsonNumberError) := rfl
  rw [hload] at hv
  cases hv

end Dcap.JSON
