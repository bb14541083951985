import AttestationChain.Dcap.Json.Walks

/-!
# Dcap/Json/Overloads — the two overloads of `JSON::Load`

The overload for bytes is told how many there are and only looks whether there are any.  So it
agrees with the one for strings just where there is a walk over the bytes themselves
(`loads_agree_iff`): where a value ends inside them, or an error does.
-/

namespace Dcap.JSON

variable {Double : Type}

/-! ## With more behind the bytes -/

theorem Stands.append {mem m : Bytes} (h : Stands mem m) (t : Bytes) :
    Stands (mem ++ t) (m ++ t) := by
  obtain ⟨blanks, hblanks, rfl, c, hc, hspace⟩ := h
  obtain ⟨r, rfl⟩ := List.head?_eq_some_iff.1 (Option.mem_def.1 hc)
  exact ⟨blanks, hblanks, List.append_assoc .., c, rfl, hspace⟩

/-- A string that ends in the memory ends there whatever follows. -/
theorem Spelled.append {s r : Bytes} {val : Option Bytes} (h : Spelled s val r) (t : Bytes) :
    Spelled (s ++ t) val (r ++ t) := by
  induction h with
  | close => exact .close
  | char hquote hescape _ ih => exact .char hquote hescape ih
  | escape he _ ih => exact .escape he ih
  | unicode hdigits _ ih => exact .unicode hdigits ih
  | @misspelled s h =>
    obtain ⟨c, hc, hhex⟩ : ∃ c ∈ s.take 4, isHexDigit c = false := by simpa using h
    refine .misspelled (List.all_eq_false.2 ⟨c, ?_, by simp [hhex]⟩)
    change c ∈ (s ++ t).take 4
    rw [List.take_append]
    exact List.mem_append_left _ hc

variable {doubles : Doubles Double}

theorem NumberAt.append {s r : Bytes} {o : Option (JSON Double)} (h : NumberAt doubles s o r)
    (t : Bytes) : NumberAt doubles (s ++ t) o (r ++ t) := by
  cases h with
  | integer hw hd hdot hi =>
    rw [List.append_assoc]
    exact .integer hw hd hdot hi
  | fraction hw hd hdot hx =>
    rw [List.append_assoc]
    exact .fraction hw hd hdot hx
  | exponent hw he hs hds hd hexp hx =>
    rw [List.append_assoc, List.cons_append, List.append_assoc, List.append_assoc]
    exact .exponent hw he hs hds hd hexp hx
  | bad hw hd hd' he =>
    rw [List.append_assoc]
    exact .bad hw hd hd' he
  | badExponent hw he hs hds hd hd' =>
    rw [List.append_assoc, List.cons_append, List.append_assoc, List.append_assoc]
    exact .badExponent hw he hs hds hd hd'

/-- A word that is not there is not there with more behind as much as was looked at. -/
theorem not_isPrefix_append {word mem : Bytes} (h : ¬ word <+: mem)
    (hlen : word.length ≤ mem.length) (t : Bytes) : ¬ word <+: mem ++ t := fun hword =>
  h (List.prefix_of_prefix_length_le hword (List.prefix_append mem t) hlen)

theorem KindAt.append {s r : Bytes} {obj : JSON Double} (h : KindAt s obj r) (t : Bytes) :
    KindAt (s ++ t) obj (r ++ t) := by
  cases h with
  | fio =>
    rw [List.append_assoc]
    exact .fio
  | flat =>
    rw [List.append_assoc]
    exact .flat
  | plain hfio hflat hroom =>
    exact .plain (not_isPrefix_append hfio (le_trans (by decide) hroom) t)
      (not_isPrefix_append hflat hroom t) (by rw [List.length_append]; omega)

theorem room_append {overload : Overload} {n : ℕ} {mem : Bytes} (h : n ≤ mem.length) (t : Bytes) :
    overload.Room n (mem ++ t) := fun _ => by
  rw [List.length_append]
  omega

mutual

/-- **A walk over bytes** is one with anything behind them, for a string as well. -/
theorem Walk.append {status status' : CrustStatus} {mem r : Bytes} {v : JSON Double}
    (h : Walk doubles .bytes status mem v status' r) (overload : Overload) (t : Bytes) :
    Walk doubles overload status (mem ++ t) v status' (r ++ t) :=
  match h with
  | .string h hs hv => .string (h.append t) (hs.append t) hv
  | .badString h hs => .badString (h.append t) (hs.append t)
  | .word h hw => .word (by rw [← List.append_assoc]; exact h.append t) hw
  | .badBool h hc htrue hfalse hroom =>
    .badBool (h.append t) hc (not_isPrefix_append htrue (le_trans (by decide) (hroom rfl)) t)
      (not_isPrefix_append hfalse (hroom rfl) t) (room_append (hroom rfl) t)
  | .badNull h hnull hroom =>
    .badNull (h.append t) (not_isPrefix_append hnull (hroom rfl) t) (room_append (hroom rfl) t)
  | .number h hc hn => .number (h.append t) hc (hn.append t)
  | .badNumber h hc hn => .badNumber (h.append t) hc (hn.append t)
  | .unknown h hc hdigit => .unknown (h.append t) hc hdigit
  | .emptyArray h hend => .emptyArray (h.append t) (hend.append t)
  | .array h hs hc hvs => .array (h.append t) (hs.append t) hc (hvs.append overload t)
  | .emptyObject h hkind hend => .emptyObject (h.append t) (hkind.append t) (hend.append t)
  | .object h hkind hs hc hms =>
    .object (h.append t) (hkind.append t) (hs.append t) hc (hms.append overload t)

theorem WalkElements.append {status status' : CrustStatus} {list : List (JSON Double)}
    {mem r : Bytes} {v : JSON Double}
    (h : WalkElements doubles .bytes status list mem v status' r) (overload : Overload)
    (t : Bytes) : WalkElements doubles overload status list (mem ++ t) v status' (r ++ t) :=
  match h with
  | .cons hv hlist hcomma hvs =>
    .cons (hv.append overload t) hlist (hcomma.append t) (hvs.append overload t)
  | .last hv hlist hend => .last (hv.append overload t) hlist (hend.append t)
  | .error hv hlist h hcomma hend => .error (hv.append overload t) hlist (h.append t) hcomma hend

theorem WalkMembers.append {status status' : CrustStatus} {obj v : JSON Double} {mem r : Bytes}
    (h : WalkMembers doubles .bytes status obj mem v status' r) (overload : Overload) (t : Bytes) :
    WalkMembers doubles overload status obj (mem ++ t) v status' (r ++ t) :=
  match h with
  | .noColon hkey h hcolon => .noColon (hkey.append overload t) (h.append t) hcolon
  | .cons hkey hcolon hv hput hcomma hms =>
    .cons (hkey.append overload t) (hcolon.append t) (hv.append overload t) hput
      (hcomma.append t) (hms.append overload t)
  | .last hkey hcolon hv hput hend =>
    .last (hkey.append overload t) (hcolon.append t) (hv.append overload t) hput (hend.append t)
  | .error hkey hcolon hv hput h hcomma hend =>
    .error (hkey.append overload t) (hcolon.append t) (hv.append overload t) hput (h.append t)
      hcomma hend

end

/-! ## The overloads -/

theorem loadBytes_eq (doubles : Doubles Double) {mem : Bytes} {dataSize : ℕ} (h : dataSize ≠ 0) :
    loadBytes doubles mem dataSize =
      next doubles .bytes .success mem >>= fun r => .ok (r.1, r.2.1) := by
  rw [loadBytes, if_neg h]
  rfl

/-- **The overloads agree** on a text: both return, and the same value with the same status,
whatever is behind the bytes. -/
def LoadsAgree (doubles : Doubles Double) (s : Bytes) : Prop :=
  ∃ p, load doubles s = .ok p ∧ ∀ after, loadBytes doubles (s ++ after) s.length = .ok p

/-- **They agree** where there is a walk over the bytes of the text, or there are none. -/
theorem loads_agree_iff (doubles : Doubles Double) (s : Bytes) : LoadsAgree doubles s ↔
    s = [] ∨ ∃ v status r, Walk doubles .bytes .success s v status r := by
  by_cases hs : s = []
  · subst hs
    exact ⟨fun _ => .inl rfl, fun _ => ⟨(.null, .success), rfl, fun after => rfl⟩⟩
  have hlen : s.length ≠ 0 := by simpa using hs
  rw [or_iff_right hs, LoadsAgree, load_eq doubles hs]
  constructor
  · rintro ⟨p, -, hbytes⟩
    -- With nothing behind them, the bytes are all that there is to walk over.
    have hread := hbytes []
    rw [List.append_nil, loadBytes_eq doubles hlen] at hread
    obtain ⟨⟨v, status, r⟩, hnext, -⟩ := bind_eq_ok.1 hread
    exact ⟨v, status, r, walk_iff.2 hnext⟩
  · rintro ⟨v, status, r, hwalk⟩
    refine ⟨(v, status), ?_, fun after => ?_⟩
    · rw [(hwalk.append .string [0]).next_eq]
      rfl
    · rw [loadBytes_eq doubles hlen, (hwalk.append .bytes after).next_eq]
      rfl

/-- A document cut off in a word, with the rest of the word in the memory behind it. -/
theorem loads_disagree : ¬ ∀ s, LoadsAgree plainDoubles s := by
  intro h
  obtain ⟨p, hload, hbytes⟩ := h (ascii "tr")
  have hload' : load plainDoubles (ascii "tr") = .ok (.null, .jsonBoolError) := rfl
  have hbytes' : loadBytes plainDoubles (ascii "tr" ++ ascii "ue") 2 =
      .ok (.boolean true, .success) := rfl
  have := (hload'.symm.trans hload).trans ((hbytes (ascii "ue")).symm.trans hbytes')
  cases this

end Dcap.JSON
