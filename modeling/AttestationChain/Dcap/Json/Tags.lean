import AttestationChain.Dcap.Json.Value

/-!
# Dcap/Json/Tags — the numbers in front of the keys of an ordered object

A value is held under its key with a number in front, the tag.  The tag for a new key follows the
last one there, and follows it as a string: a nine gets a zero put behind it, and since the
separator is below every digit no key can come between (`named_lt_named`, `lt_nextTag`).
-/

namespace Dcap.JSON

variable {Double : Type}

/-- A key under a tag. -/
def named (tag key : Bytes) : Bytes := tag ++ fioSeparater :: key

theorem length_named (tag key : Bytes) : (named tag key).length = tag.length + 1 + key.length := by
  rw [named, List.length_append, List.length_cons]
  omega

/-- **A tag**: digits, at least one. -/
def IsTag (tag : Bytes) : Prop := isNumber tag = true

theorem isTag_iff {tag : Bytes} : IsTag tag ↔ tag ≠ [] ∧ ∀ c ∈ tag, isDigit c = true := by
  simp [IsTag, isNumber]

theorem IsTag.separater_notMem {tag : Bytes} (h : IsTag tag) : fioSeparater ∉ tag := fun hmem =>
  absurd ((isTag_iff.1 h).2 _ hmem) (by decide)

/-! ## Reading a tag off -/

theorem takeWhile_named {tag : Bytes} (h : IsTag tag) (key : Bytes) :
    (named tag key).takeWhile (· ≠ fioSeparater) = tag := by
  rw [named, List.takeWhile_append_of_pos]
  · simp
  · exact fun c hc => decide_eq_true fun heq => h.separater_notMem (heq ▸ hc)

theorem drop_named (tag key : Bytes) : (named tag key).drop (tag.length + 1) = key := by
  rw [named, ← List.drop_drop, List.drop_left]
  rfl

/-- The tag of a key under a tag. -/
theorem numberTag_named {tag : Bytes} (h : IsTag tag) (key : Bytes) :
    numberTag (named tag key) = some tag := by
  rw [numberTag, takeWhile_named h, if_pos ⟨by simp [named], h⟩]

/-- **A tag and a key are read off** what they make up. -/
theorem named_inj {tag tag' key key' : Bytes} (h : IsTag tag) (h' : IsTag tag') :
    named tag key = named tag' key' ↔ tag = tag' ∧ key = key' := by
  refine ⟨fun heq => ?_, fun ⟨htag, hkey⟩ => by rw [htag, hkey]⟩
  have htag : tag = tag' := by rw [← takeWhile_named h key, heq, takeWhile_named h']
  subst htag
  exact ⟨rfl, by rw [← drop_named tag key, heq, drop_named]⟩

/-- `json_escape` leaves a tag as it is. -/
theorem escaped_named {tag : Bytes} (h : IsTag tag) (key : Bytes) :
    escaped (named tag key) = named tag (escaped key) := by
  have hdigit : ∀ c : UInt8, isDigit c = true → escapeByte c = [c] :=
    forall_byte (by decide +kernel)
  have htag : escaped tag = tag := by
    have hall := (isTag_iff.1 h).2
    clear h
    induction tag with
    | nil => rfl
    | cons c tag ih =>
      rw [escaped_cons, hdigit c (hall c (by simp)), ih fun d hd => hall d (by simp [hd])]
      rfl
  calc escaped (tag ++ fioSeparater :: key)
      = escaped tag ++ escaped (fioSeparater :: key) := List.flatMap_append ..
    _ = tag ++ fioSeparater :: escaped key := by rw [htag]; rfl

/-! ## The order of the tags -/

theorem lt_append_cons (s : Bytes) (c : UInt8) (t : Bytes) : s < s ++ c :: t := by
  induction s with
  | nil => exact List.nil_lt_cons c t
  | cons d s ih => exact List.cons_lt_cons_iff.2 (.inr ⟨rfl, ih⟩)

theorem append_lt_append {s t : Bytes} (u : Bytes) (h : s < t) : u ++ s < u ++ t := by
  induction u with
  | nil => exact h
  | cons c u ih => exact List.cons_lt_cons_iff.2 (.inr ⟨rfl, ih⟩)

/-- **The keys are ordered by their tags**, whatever they are: a tag that goes on where another ends
goes on with a digit, and the separator is below. -/
theorem named_lt_named {tag tag' : Bytes} (h : IsTag tag') (hlt : tag < tag') (key key' : Bytes) :
    named tag key < named tag' key' := by
  have hdigit : ∀ c : UInt8, isDigit c = true → fioSeparater < c := forall_byte (by decide +kernel)
  have hall := (isTag_iff.1 h).2
  clear h
  induction tag generalizing tag' with
  | nil =>
    obtain _ | ⟨c, tag'⟩ := tag'
    · exact absurd hlt (List.lt_irrefl [])
    · exact List.cons_lt_cons_iff.2 (.inl (hdigit c (hall c (by simp))))
  | cons c tag ih =>
    obtain _ | ⟨d, tag'⟩ := tag'
    · exact absurd hlt (List.not_lt_nil _)
    · refine List.cons_lt_cons_iff.2 ((List.cons_lt_cons_iff.1 hlt).imp_right fun ⟨heq, hlt⟩ => ?_)
      exact ⟨heq, ih hlt fun c hc => hall c (by simp [hc])⟩

/-- **The next tag** is one, and follows. -/
theorem lt_nextTag {tag : Bytes} (h : IsTag tag) : IsTag (nextTag tag) ∧ tag < nextTag tag := by
  obtain ⟨hne, hall⟩ := isTag_iff.1 h
  obtain ⟨init, d, hconcat⟩ := (List.eq_nil_or_concat tag).resolve_left hne
  rw [List.concat_eq_append] at hconcat
  subst hconcat
  have hd : isDigit d = true := hall d (by simp)
  have hinit : ∀ c ∈ init, isDigit c = true := fun c hc => hall c (by simp [hc])
  have hsucc : ∀ d : UInt8, isDigit d = true → ¬ 57 ≤ d → isDigit (d + 1) = true ∧ d < d + 1 :=
    forall_byte (by decide +kernel)
  rw [nextTag, List.getLast?_concat]
  dsimp only
  split
  · refine ⟨isTag_iff.2 ⟨by simp, ?_⟩, lt_append_cons _ 48 []⟩
    exact List.forall_mem_append.2 ⟨hall, by simp [isDigit]⟩
  · rename_i hnine
    obtain ⟨hdigit, hlt⟩ := hsucc d hd hnine
    rw [List.dropLast_concat]
    refine ⟨isTag_iff.2 ⟨by simp, List.forall_mem_append.2 ⟨hinit, by simpa using hdigit⟩⟩, ?_⟩
    exact append_lt_append init (List.cons_lt_cons_iff.2 (.inl hlt))

/-! ## The key for a new value -/

/-- It is numbered by the last of those there. -/
theorem numberedKey_concat {tag : Bytes} (h : IsTag tag) (vals : List (Bytes × JSON Double))
    (key' : Bytes) (v : JSON Double) (key : Bytes) :
    numberedKey (vals ++ [(named tag key', v)]) key = named (nextTag tag) key := by
  rw [numberedKey, List.reverse_append, List.reverse_singleton, List.singleton_append,
    List.findSome?_cons_of_isSome (by rw [numberTag_named h]; rfl), numberTag_named h]
  rfl

end Dcap.JSON
