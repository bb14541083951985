import AttestationChain.Dcap.Json.Printers
import AttestationChain.Dcap.Json.Totality

/-!
# Dcap/Json/Blanks — texts up to the blanks outside of their strings

`squeeze` drops the blanks of a text, save those inside of a string.  Of two texts that are put
together from parts, either each part agrees with its counterpart, and then the texts do, or the
first part that does not sets them apart, whatever stands behind (`AgreesIff.append`).
-/

namespace Dcap.JSON

/-! ## Spots -/

/-- One character further. -/
def Spot.step (spot : Spot) (c : UInt8) : Spot :=
  match spot with
  | .escaped => .quoted
  | .quoted => if c = 34 then .plain else if c = 92 then .escaped else .quoted
  | .plain => if c = 34 then .quoted else .plain

/-- The spot behind a text. -/
def Spot.after (spot : Spot) (s : Bytes) : Spot := s.foldl Spot.step spot

@[simp] theorem Spot.after_cons (spot : Spot) (c : UInt8) (s : Bytes) :
    spot.after (c :: s) = (spot.step c).after s := rfl

theorem Spot.after_append (spot : Spot) (s t : Bytes) :
    spot.after (s ++ t) = (spot.after s).after t := List.foldl_append

theorem Spot.step_plain {c : UInt8} (h : isSpace c = true) : Spot.plain.step c = .plain := by
  refine if_neg ?_
  rintro rfl
  exact absurd h (by decide)

/-! ## Squeezing -/

/-- A text without the blanks that are outside of its strings. -/
def squeeze : Spot → Bytes → Bytes
  | _, [] => []
  | spot, c :: s =>
    if spot = .plain ∧ isSpace c = true then squeeze spot s else c :: squeeze (spot.step c) s

/-- A character that is kept: one inside of a string, or that is no blank. -/
theorem squeeze_kept {spot : Spot} {c : UInt8} (h : spot ≠ .plain ∨ isSpace c = false) (s : Bytes) :
    squeeze spot (c :: s) = c :: squeeze (spot.step c) s := by
  refine if_neg ?_
  rintro ⟨hplain, hc⟩
  rcases h with h | h
  · exact h hplain
  · rw [h] at hc
    cases hc

theorem squeeze_append (spot : Spot) (s t : Bytes) :
    squeeze spot (s ++ t) = squeeze spot s ++ squeeze (spot.after s) t := by
  induction s generalizing spot with
  | nil => rfl
  | cons c s ih =>
    rw [List.cons_append, squeeze, squeeze, Spot.after_cons]
    split_ifs with h
    · obtain ⟨rfl, hc⟩ := h
      rw [ih, Spot.step_plain hc]
    · rw [ih, List.cons_append]

theorem after_blank {b : Bytes} (h : Blank b) : Spot.plain.after b = .plain := by
  induction b with
  | nil => rfl
  | cons c b ih =>
    obtain ⟨hc, hb⟩ := List.forall_mem_cons.1 h
    rw [Spot.after_cons, Spot.step_plain hc, ih hb]

theorem squeeze_blank {b : Bytes} (h : Blank b) : squeeze .plain b = [] := by
  induction b with
  | nil => rfl
  | cons c b ih =>
    obtain ⟨hc, hb⟩ := List.forall_mem_cons.1 h
    rw [squeeze, if_pos ⟨rfl, hc⟩, ih hb]

/-! ## Parts of two texts -/

/-- **Parts that agree**: they are complete, and come to the same without blanks. -/
structure Agree (t u : Bytes) : Prop where
  after_left : Spot.plain.after t = .plain
  after_right : Spot.plain.after u = .plain
  squeeze_eq : squeeze .plain t = squeeze .plain u

/-- Two texts that differ somewhere, and not just in where they end. -/
def Apart (s s' : Bytes) : Prop :=
  ∃ p c d r r', s = p ++ c :: r ∧ s' = p ++ d :: r' ∧ c ≠ d

theorem Apart.ne {s s' : Bytes} (h : Apart s s') : s ≠ s' := by
  obtain ⟨p, c, d, r, r', rfl, rfl, hne⟩ := h
  exact fun heq => hne (List.cons.inj (List.append_cancel_left heq)).1

theorem Apart.append_left {s s' : Bytes} (p : Bytes) (h : Apart s s') :
    Apart (p ++ s) (p ++ s') := by
  obtain ⟨q, c, d, r, r', rfl, rfl, hne⟩ := h
  exact ⟨p ++ q, c, d, r, r', (List.append_assoc ..).symm, (List.append_assoc ..).symm, hne⟩

/-- **Parts that set texts apart**, whatever stands behind them. -/
def Clash (t u : Bytes) : Prop := ∀ r r', Apart (squeeze .plain (t ++ r)) (squeeze .plain (u ++ r'))

theorem Clash.append {t u : Bytes} (h : Clash t u) (t' u' : Bytes) : Clash (t ++ t') (u ++ u') :=
  fun r r' => by simpa only [List.append_assoc] using h (t' ++ r) (u' ++ r')

namespace Agree

variable {t u t' u' : Bytes}

theorem append (h : Agree t u) (h' : Agree t' u') : Agree (t ++ t') (u ++ u') where
  after_left := by rw [Spot.after_append, h.after_left, h'.after_left]
  after_right := by rw [Spot.after_append, h.after_right, h'.after_right]
  squeeze_eq := by
    rw [squeeze_append, squeeze_append, h.after_left, h.after_right, h.squeeze_eq, h'.squeeze_eq]

theorem clash (h : Agree t u) (h' : Clash t' u') : Clash (t ++ t') (u ++ u') := by
  intro r r'
  rw [List.append_assoc, List.append_assoc, squeeze_append .plain t, squeeze_append .plain u,
    h.after_left, h.after_right, h.squeeze_eq]
  exact (h' r r').append_left _

/-- A complete part agrees with itself. -/
theorem refl (h : Spot.plain.after t = .plain) : Agree t t := ⟨h, h, rfl⟩

theorem blank (ht : Blank t) (hu : Blank u) : Agree t u :=
  ⟨after_blank ht, after_blank hu, by rw [squeeze_blank ht, squeeze_blank hu]⟩

theorem spaced {c : UInt8} (hc : Spot.plain.step c = .plain) (ht : Spaced c t) (hu : Spaced c u) :
    Agree t u := by
  obtain ⟨a, b, ha, hb, rfl⟩ := ht
  obtain ⟨a', b', ha', hb', rfl⟩ := hu
  exact (blank ha ha').append ((refl (t := [c]) hc).append (blank hb hb'))

end Agree

/-! ## Agreement under a condition -/

/-- **Two texts agree under a condition**, and clash without it. -/
structure AgreesIff (ok : Prop) (t u : Bytes) : Prop where
  agree : ok → Agree t u
  clash : ¬ ok → Clash t u

namespace AgreesIff

variable {ok ok' : Prop} {t u t' u' : Bytes}

theorem of_agree (h : Agree t u) : AgreesIff True t u := ⟨fun _ => h, fun hno => (hno trivial).elim⟩

theorem of_iff (h : AgreesIff ok t u) (hok : ok' ↔ ok) : AgreesIff ok' t u :=
  ⟨fun hok' => h.agree (hok.1 hok'), fun hno => h.clash fun h' => hno (hok.2 h')⟩

/-- **Parts agree one by one.** -/
theorem append (h : AgreesIff ok t u) (h' : AgreesIff ok' t' u') :
    AgreesIff (ok ∧ ok') (t ++ t') (u ++ u') where
  agree hok := (h.agree hok.1).append (h'.agree hok.2)
  clash hno := by
    by_cases hok : ok
    · exact (h.agree hok).clash (h'.clash fun hok' => hno ⟨hok, hok'⟩)
    · exact (h.clash hok).append t' u'

theorem squeeze_eq_iff (h : AgreesIff ok t u) : squeeze .plain t = squeeze .plain u ↔ ok := by
  refine ⟨fun heq => ?_, fun hok => (h.agree hok).squeeze_eq⟩
  by_contra hno
  have hapart := h.clash hno [] []
  rw [List.append_nil, List.append_nil] at hapart
  exact hapart.ne heq

variable {α : Type} {text text' : α → Bytes} {sep sep' : Bytes} {okAt : α → Prop}

/-- **A list of parts** agrees if each of them does. -/
theorem intercalate (hsep : Agree sep sep') : ∀ {l : List α},
    (∀ a ∈ l, AgreesIff (okAt a) (text a) (text' a)) →
      AgreesIff (∀ a ∈ l, okAt a) (sep.intercalate (l.map text)) (sep'.intercalate (l.map text'))
  | [], _ => (of_agree (Agree.refl rfl)).of_iff (iff_true_intro (List.forall_mem_nil _))
  | [a], h => by
    rw [List.map_singleton, List.map_singleton, List.intercalate_singleton,
      List.intercalate_singleton]
    exact (h a (by simp)).of_iff List.forall_mem_singleton
  | a :: b :: l, h => by
    have hrest := intercalate hsep fun c hc => h c (List.mem_cons_of_mem a hc)
    rw [intercalate_map_cons_cons, intercalate_map_cons_cons]
    refine (((h a (by simp)).append (of_agree hsep)).append hrest).of_iff ?_
    rw [and_true]
    exact List.forall_mem_cons

end AgreesIff

end Dcap.JSON
