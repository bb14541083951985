import AttestationChain.Dcap.Json.Reads

/-!
# Dcap/Json/Totality — which texts are read to an end

A text is read well if the reading comes back with its offset in the text or at the NUL behind it,
and does not report success where the text breaks off inside a string, an array or an object.  It is
so where there is a walk over the text that stops in it, unless it starts with a complete value and
breaks off behind that (`readsWell_iff`).
-/

namespace Dcap.JSON

/-! ## Where a text ends -/

/-- What a character may stand in. -/
inductive Spot
  | plain
  | quoted
  | escaped
  deriving DecidableEq

/-- Where a text is: outside or inside of a string, and the brackets that are open, innermost
first. -/
structure Place where
  spot : Spot
  brackets : Bytes
  deriving DecidableEq

/-- One character further. -/
def Place.step (p : Place) (c : UInt8) : Place :=
  match p.spot with
  | .escaped => { p with spot := .quoted }
  | .quoted =>
    if c = 34 then { p with spot := .plain }
    else if c = 92 then { p with spot := .escaped }
    else p
  | .plain =>
    if c = 34 then { p with spot := .quoted }
    else if c = 91 ∨ c = 123 then { p with brackets := c :: p.brackets }
    else if c = 93 ∧ p.brackets.head? = some 91 ∨ c = 125 ∧ p.brackets.head? = some 123 then
      { p with brackets := p.brackets.tail }
    else p

/-- The place at the end of a text. -/
def placeAfter (s : Bytes) : Place := s.foldl Place.step ⟨.plain, []⟩

/-- **A text ends inside** a string, an escape, an array or an object. -/
def EndsInside (s : Bytes) : Prop := placeAfter s ≠ ⟨.plain, []⟩

instance (s : Bytes) : Decidable (EndsInside s) := inferInstanceAs (Decidable (_ ≠ _))

example : EndsInside (ascii "[1] \x7b\"]\x7d\" : [2]") ∧
    ¬ EndsInside (ascii "[1] \x7b\"]\x7d\" : [2]\x7d") := by
  decide

/-! ## Readings to an end -/

variable {Double : Type} (doubles : Doubles Double)

/-- `JSON::Load`, with the memory that its offset leaves. -/
def loadAt (str : Bytes) : Except Fault (Parsed Double) :=
  if str = [] then .ok (.null, .success, [0]) else next doubles .string .success (str ++ [0])

theorem load_eq_loadAt (str : Bytes) :
    load doubles str = loadAt doubles str >>= fun r => .ok (r.1, r.2.1) := by
  by_cases h : str = []
  · subst h
    rfl
  · rw [load_eq doubles h, loadAt, if_neg h]

/-- **A text is read well**: the reading returns, its offset is not past the NUL, and it does not
report success where the text ends inside something. -/
def ReadsWell (s : Bytes) : Prop :=
  ∃ v status r, loadAt doubles s = .ok (v, status, r) ∧ r ≠ [] ∧ (EndsInside s → status ≠ .success)

/-- **There is a walk that stops inside of a text**, closed by its NUL: every token on the way ends
in front of the NUL, or at it, and converts. -/
def StopsInside (s : Bytes) : Prop :=
  ∃ v status r, Walk doubles .string .success (s ++ [0]) v status r ∧ r ≠ []

/-- **A text starts with a complete value**: there is a walk over it without an error. -/
def StartsWithValue (s : Bytes) : Prop :=
  ∃ v r, Walk doubles .string .success (s ++ [0]) v .success r

/-- **A text is read well** where there is a walk that stops inside of it, unless it starts with a
complete value and ends inside something. -/
theorem readsWell_iff (s : Bytes) : ReadsWell doubles s ↔
    s = [] ∨ StopsInside doubles s ∧ ¬ (StartsWithValue doubles s ∧ EndsInside s) := by
  by_cases hs : s = []
  · subst hs
    exact ⟨fun _ => .inl rfl, fun _ => ⟨.null, .success, [0], rfl, by simp,
      fun h => absurd h (by decide)⟩⟩
  constructor
  · rintro ⟨v, status, r, hload, hr, hinside⟩
    rw [loadAt, if_neg hs] at hload
    refine .inr ⟨⟨v, status, r, walk_iff.2 hload, hr⟩, ?_⟩
    rintro ⟨⟨w, r', hw⟩, hends⟩
    rw [hw.next_eq] at hload
    exact hinside hends (parsed_inj hload).2.1.symm
  · rintro (h | ⟨⟨v, status, r, hwalk, hr⟩, hvalue⟩)
    · exact (hs h).elim
    refine ⟨v, status, r, by rw [loadAt, if_neg hs, hwalk.next_eq], hr, ?_⟩
    rintro hends rfl
    exact hvalue ⟨⟨v, r, hwalk⟩, hends⟩

/-- A string that is not closed. -/
theorem not_readsWell : ¬ ∀ s, ReadsWell plainDoubles s := by
  intro h
  obtain ⟨v, status, r, hload, -⟩ := h (ascii "\"")
  have herror : loadAt plainDoubles (ascii "\"") = .error .outOfBounds := rfl
  rw [herror] at hload
  cases hload

end Dcap.JSON
