import AttestationChain.Dcap.Json.Termination

/-!
# Dcap/Json/Steps — the parser without its bound

Any bound that is enough gives the same result (`parse_congr`), so the parser has equations of its
own: `next` reads a value, `elements` what is left of an array and `members` what is left of an
object, each by what stands at the next character.
-/

namespace Dcap.JSON

variable {Double : Type}

/-- What is done with what a step leaves matters only as far as the step can leave it. -/
theorem bind_congr {α β : Type} {left : α → Bytes} {n : ℕ} {r : Except Fault α}
    {f g : α → Except Fault β} (h : Leaves left n r) (hfg : ∀ a, (left a).length ≤ n → f a = g a) :
    r >>= f = r >>= g := by
  cases r with
  | ok a => exact hfg a h
  | error fault => rfl

/-- **Two bounds that are enough give the same result.** -/
theorem parse_congr (doubles : Doubles Double) (overload : Overload) (fuel : ℕ) : ∀ fuel',
    (∀ status mem, 2 * mem.length + 1 ≤ fuel → 2 * mem.length + 1 ≤ fuel' →
      parseNext doubles overload fuel status mem =
        parseNext doubles overload fuel' status mem) ∧
    (∀ status list mem, 2 * mem.length + 2 ≤ fuel → 2 * mem.length + 2 ≤ fuel' →
      parseElements doubles overload fuel status list mem =
        parseElements doubles overload fuel' status list mem) ∧
    ∀ status obj mem, 2 * mem.length + 2 ≤ fuel → 2 * mem.length + 2 ≤ fuel' →
      parseMembers doubles overload fuel status obj mem =
        parseMembers doubles overload fuel' status obj mem := by
  induction fuel with
  | zero => exact fun _ => ⟨by omega, by omega, by omega⟩
  | succ fuel ih =>
    rintro (_ | fuel')
    · exact ⟨by omega, by omega, by omega⟩
    obtain ⟨hnext, helements, hmembers⟩ := ih fuel'
    have hleaves := leaves_parse doubles overload fuel
    refine ⟨fun status mem h h' => ?_, fun status list mem h h' => ?_,
      fun status obj mem h h' => ?_⟩
    · rw [parseNext, parseNext]
      refine bind_congr (leaves_consumeWs mem) fun mem₁ hmem₁ => ?_
      split
      · rfl
      rename_i c mem₂
      simp only [List.length_cons] at hmem₁
      split
      · refine bind_congr (leaves_consumeWs mem₂) fun mem₃ hmem₃ => ?_
        split
        · rfl
        · exact helements _ _ mem₃ (by omega) (by omega)
      split
      · refine bind_congr (leaves_emptyObject mem₂) fun obj hobj => ?_
        refine bind_congr (leaves_consumeWs obj.2) fun mem₃ hmem₃ => ?_
        split
        · rfl
        · exact hmembers _ _ mem₃ (by omega) (by omega)
      · rfl
    · rw [parseElements, parseElements, hnext status mem (by omega) (by omega)]
      rw [← hnext status mem (by omega) (by omega)]
      refine bind_congr (hleaves.1 status mem (by omega)) fun r hr => ?_
      refine bind_congr (fueled_setNext list r.1) fun list' _ => ?_
      refine bind_congr (leaves_consumeWs r.2.2) fun mem₁ hmem₁ => ?_
      split
      · simp only [List.length_cons] at hmem₁
        exact helements _ _ _ (by omega) (by omega)
      · rfl
      · rfl
    · rw [parseMembers, parseMembers, ← hnext status mem (by omega) (by omega)]
      refine bind_congr (hleaves.1 status mem (by omega)) fun r hr => ?_
      refine bind_congr (leaves_consumeWs r.2.2) fun mem₁ hmem₁ => ?_
      split
      · simp only [List.length_cons] at hmem₁
        refine bind_congr (leaves_consumeWs _) fun mem₂ hmem₂ => ?_
        rw [← hnext _ mem₂ (by omega) (by omega)]
        refine bind_congr (hleaves.1 _ mem₂ (by omega)) fun r' hr' => ?_
        refine bind_congr (fueled_toString r.1) fun name _ => ?_
        refine bind_congr (fueled_set obj name r'.1) fun obj' _ => ?_
        refine bind_congr (leaves_consumeWs r'.2.2) fun mem₃ hmem₃ => ?_
        split
        · simp only [List.length_cons] at hmem₃
          exact hmembers _ _ _ (by omega) (by omega)
        · rfl
        · rfl
      · rfl

section Steps

variable (doubles : Doubles Double) (overload : Overload)

/-- `parse_next`, with a bound that is enough. -/
def next (status : CrustStatus) (mem : Bytes) : Except Fault (Parsed Double) :=
  parseNext doubles overload (2 * mem.length + 1) status mem

/-- The loop of `parse_array`, likewise. -/
def elements (status : CrustStatus) (list : List (JSON Double)) (mem : Bytes) :
    Except Fault (Parsed Double) :=
  parseElements doubles overload (2 * mem.length + 2) status list mem

/-- The loop of `parse_object`, likewise. -/
def members (status : CrustStatus) (obj : JSON Double) (mem : Bytes) :
    Except Fault (Parsed Double) :=
  parseMembers doubles overload (2 * mem.length + 2) status obj mem

/-! ## What stands at the next character -/

/-- What is neither an array nor an object. -/
def scalar (status : CrustStatus) (c : UInt8) (mem : Bytes) : Except Fault (Parsed Double) :=
  if c = 34 then parseString status mem
  else if c = 116 ∨ c = 102 then parseBool overload status (c :: mem)
  else if c = 110 then parseNull overload status (c :: mem)
  else if isDigit c ∨ c = 45 then parseNumber doubles status (c :: mem)
  else .ok (.null, .jsonStartingError, c :: mem)

/-- An array, behind its bracket and what blanks follow. -/
def arrayAt (status : CrustStatus) : Bytes → Except Fault (Parsed Double)
  | 93 :: mem => .ok (.array [], status, mem)
  | mem => elements doubles overload status [] mem

/-- An object, behind its brace, its kind and what blanks follow. -/
def objectAt (status : CrustStatus) (obj : JSON Double) : Bytes → Except Fault (Parsed Double)
  | 125 :: mem => .ok (obj, status, mem)
  | mem => members doubles overload status obj mem

/-- A value, behind its blanks. -/
def valueAt (status : CrustStatus) : Bytes → Except Fault (Parsed Double)
  | [] => .error .outOfBounds
  | c :: mem =>
    if c = 91 then consumeWs mem >>= arrayAt doubles overload status
    else if c = 123 then
      emptyObject mem >>= fun r => consumeWs r.2 >>= objectAt doubles overload status r.1
    else scalar doubles overload status c mem

/-- What follows an element. -/
def elementAt (status : CrustStatus) (list : List (JSON Double)) :
    Bytes → Except Fault (Parsed Double)
  | 44 :: mem => elements doubles overload status list mem
  | 93 :: mem => .ok (.array list, status, mem)
  | mem => .ok (.array [], .jsonArrayError, mem)

/-- What follows a member. -/
def memberAt (status : CrustStatus) (obj : JSON Double) : Bytes → Except Fault (Parsed Double)
  | 44 :: mem => members doubles overload status obj mem
  | 125 :: mem => .ok (obj, status, mem)
  | mem => .ok (obj, .jsonObjectError, mem)

/-- The value of a member, put under its key, and what follows it. -/
def memberValue (key obj : JSON Double) (r : Parsed Double) : Except Fault (Parsed Double) :=
  putMember key obj r.1 >>= fun obj => consumeWs r.2.2 >>= memberAt doubles overload r.2.1 obj

/-- What follows the key of a member. -/
def colonAt (status : CrustStatus) (key obj : JSON Double) : Bytes → Except Fault (Parsed Double)
  | 58 :: mem => consumeWs mem >>= fun mem =>
      next doubles overload status mem >>= memberValue doubles overload key obj
  | mem => .ok (obj, .jsonObjectError, mem)

variable {doubles overload}

theorem parseNext_eq_next {fuel : ℕ} {status : CrustStatus} {mem : Bytes}
    (h : 2 * mem.length + 1 ≤ fuel) :
    parseNext doubles overload fuel status mem = next doubles overload status mem :=
  (parse_congr doubles overload fuel _).1 status mem h le_rfl

theorem parseElements_eq_elements {fuel : ℕ} {status : CrustStatus} {list : List (JSON Double)}
    {mem : Bytes} (h : 2 * mem.length + 2 ≤ fuel) :
    parseElements doubles overload fuel status list mem =
      elements doubles overload status list mem :=
  (parse_congr doubles overload fuel _).2.1 status list mem h le_rfl

theorem parseMembers_eq_members {fuel : ℕ} {status : CrustStatus} {obj : JSON Double} {mem : Bytes}
    (h : 2 * mem.length + 2 ≤ fuel) :
    parseMembers doubles overload fuel status obj mem =
      members doubles overload status obj mem :=
  (parse_congr doubles overload fuel _).2.2 status obj mem h le_rfl

variable (doubles overload)

theorem leaves_next (status : CrustStatus) (mem : Bytes) :
    Leaves (fun r : Parsed Double => r.2.2) mem.length (next doubles overload status mem) :=
  (leaves_parse doubles overload _).1 status mem le_rfl

/-! ## The equations -/

/-- **A value** is what stands behind its blanks. -/
theorem next_eq (status : CrustStatus) (mem : Bytes) :
    next doubles overload status mem = consumeWs mem >>= valueAt doubles overload status := by
  rw [next, parseNext]
  refine bind_congr (leaves_consumeWs mem) fun mem₁ hmem₁ => ?_
  cases mem₁ with
  | nil => rfl
  | cons c mem₂ =>
    simp only [List.length_cons] at hmem₁
    rw [valueAt]
    dsimp only
    by_cases harray : c = 91
    · rw [if_pos harray, if_pos harray]
      refine bind_congr (leaves_consumeWs mem₂) fun mem₃ hmem₃ => ?_
      split
      · rfl
      · rename_i hne
        rw [arrayAt]
        · exact parseElements_eq_elements (by omega)
        · exact hne
    rw [if_neg harray, if_neg harray]
    by_cases hobject : c = 123
    · rw [if_pos hobject, if_pos hobject]
      refine bind_congr (leaves_emptyObject mem₂) fun obj hobj => ?_
      refine bind_congr (leaves_consumeWs obj.2) fun mem₃ hmem₃ => ?_
      split
      · rfl
      · rename_i hne
        rw [objectAt]
        · exact parseMembers_eq_members (by omega)
        · exact hne
    rw [if_neg hobject, if_neg hobject]
    rfl

/-- **Elements** are a value and what follows it. -/
theorem elements_eq (status : CrustStatus) (list : List (JSON Double)) (mem : Bytes) :
    elements doubles overload status list mem = next doubles overload status mem >>= fun r =>
      setNext list r.1 >>= fun list =>
        consumeWs r.2.2 >>= elementAt doubles overload r.2.1 list := by
  rw [elements, parseElements, parseNext_eq_next (by omega)]
  refine bind_congr (leaves_next doubles overload status mem) fun r hr => ?_
  refine bind_congr (fueled_setNext list r.1) fun list' _ => ?_
  refine bind_congr (leaves_consumeWs r.2.2) fun mem₁ hmem₁ => ?_
  split
  · simp only [List.length_cons] at hmem₁
    exact parseElements_eq_elements (by omega)
  · rfl
  · rw [elementAt] <;> assumption

/-- **Members** are a key and what follows it. -/
theorem members_eq (status : CrustStatus) (obj : JSON Double) (mem : Bytes) :
    members doubles overload status obj mem = next doubles overload status mem >>= fun r =>
      consumeWs r.2.2 >>= colonAt doubles overload r.2.1 r.1 obj := by
  rw [members, parseMembers, parseNext_eq_next (by omega)]
  refine bind_congr (leaves_next doubles overload status mem) fun r hr => ?_
  refine bind_congr (leaves_consumeWs r.2.2) fun mem₁ hmem₁ => ?_
  split
  · simp only [List.length_cons] at hmem₁
    refine bind_congr (leaves_consumeWs _) fun mem₂ hmem₂ => ?_
    rw [parseNext_eq_next (by omega)]
    refine bind_congr (leaves_next doubles overload _ mem₂) fun r' hr' => ?_
    rw [memberValue, putMember, bind_assoc]
    refine bind_congr (fueled_toString r.1) fun name _ => ?_
    refine bind_congr (fueled_set obj name r'.1) fun obj' _ => ?_
    refine bind_congr (leaves_consumeWs r'.2.2) fun mem₃ hmem₃ => ?_
    split
    · simp only [List.length_cons] at hmem₃
      exact parseMembers_eq_members (by omega)
    · rfl
    · rw [memberAt] <;> assumption
  · rw [colonAt]
    assumption

/-- **Loading a document** reads its value, in front of the NUL. -/
theorem load_eq {str : Bytes} (h : str ≠ []) : load doubles str =
    next doubles .string .success (str ++ [0]) >>= fun r => .ok (r.1, r.2.1) := by
  have hfuel : 2 * (str ++ [0]).length + 1 ≤ 2 * str.length + 3 := by
    rw [List.length_append, List.length_singleton]
    omega
  rw [load, if_neg h]
  exact congrArg (fun r : Except Fault (Parsed Double) => r >>= fun r => .ok (r.1, r.2.1))
    (parseNext_eq_next hfuel)

end Steps

end Dcap.JSON
