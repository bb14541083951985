import AttestationChain.Dcap.Json.Parse

/-!
# Dcap/Json/Termination — the parser ends

Every step of the parser leaves at most the memory it was given, and a step that recurses leaves
less: it has passed a bracket, a comma or a colon.  So the bound `load` gives the recursion is never
met (`load_ne_outOfFuel`).
-/

namespace Dcap.JSON

variable {Double : Type}

/-! ## Steps -/

/-- A step that does not run out of fuel, and leaves at most so much of the memory. -/
def Leaves {α : Type} (left : α → Bytes) (n : ℕ) : Except Fault α → Prop
  | .ok a => (left a).length ≤ n
  | .error fault => fault ≠ .outOfFuel

theorem Leaves.mono {α : Type} {left : α → Bytes} {m n : ℕ} {r : Except Fault α}
    (h : Leaves left m r) (hmn : m ≤ n) : Leaves left n r := by
  cases r with
  | ok a => exact le_trans h hmn
  | error fault => exact h

/-- **The rule of composition**: what follows a step starts from what the step left. -/
theorem Leaves.bind {α β : Type} {left : α → Bytes} {left' : β → Bytes} {m n : ℕ}
    {r : Except Fault α} {f : α → Except Fault β} (h : Leaves left m r)
    (hf : ∀ a, (left a).length ≤ m → Leaves left' n (f a)) : Leaves left' n (r >>= f) := by
  cases r with
  | ok a => exact hf a h
  | error fault => exact h

/-- A step that does not run out of fuel, and leaves the memory alone. -/
abbrev Fueled {α : Type} (r : Except Fault α) : Prop := Leaves (fun _ => []) 0 r

/-! ## The tokens -/

theorem leaves_ok {value : JSON Double} {status : CrustStatus} {mem : Bytes} {n : ℕ}
    (h : mem.length ≤ n) : Leaves (fun r : Parsed Double => r.2.2) n (.ok (value, status, mem)) := h

theorem leaves_consumeWs (mem : Bytes) : Leaves (·) mem.length (consumeWs mem) := by
  induction mem with
  | nil => simp [consumeWs, Leaves]
  | cons c mem ih =>
    rw [consumeWs]
    split
    · exact ih.mono (by simp)
    · exact le_refl _

theorem leaves_prepend {s : Bytes} {n : ℕ} {r : Except Fault (Option Bytes × Bytes)}
    (h : Leaves Prod.snd n r) : Leaves Prod.snd n (prepend s r) := by
  cases r with
  | ok a => exact h
  | error fault => exact h

theorem leaves_scanString (mem : Bytes) : Leaves Prod.snd mem.length (scanString mem) := by
  fun_induction scanString mem with
  | case1 => simp [Leaves]
  | case2 => exact Nat.zero_le _
  | case3 c hc => simp [Leaves]
  | case4 e mem => exact Nat.le_succ _
  | case5 c e mem hc hc' ih => exact (leaves_prepend ih).mono (Nat.le_succ _)
  | case6 c e mem hc hc' he ih => exact (leaves_prepend ih).mono (by simp; omega)
  | case7 c e hc hc' he h₁ h₂ h₃ h₄ mem hhex ih => exact (leaves_prepend ih).mono (by simp; omega)
  | case8 c e hc hc' he h₁ h₂ h₃ h₄ mem hhex => exact Nat.le_succ _
  | case9 c e hc hc' he mem hmem hhex => simp [Leaves]
  | case10 c e hc hc' he mem hmem hhex => exact Nat.le_succ _

theorem fueled_stringValue (val : Bytes) :
    Fueled (stringValue val : Except Fault (JSON Double)) := by
  unfold stringValue
  repeat' split
  all_goals simp [Leaves]

theorem leaves_parseString (status : CrustStatus) (mem : Bytes) :
    Leaves (fun r : Parsed Double => r.2.2) mem.length (parseString status mem) := by
  refine (leaves_scanString mem).bind ?_
  rintro ⟨val | val, rest⟩ hrest
  · exact hrest
  · exact (fueled_stringValue val).bind fun ans _ => hrest

theorem fueled_stol (s : Bytes) : Fueled (stol s) := by
  unfold stol
  extract_lets digits n i
  split <;> simp [Leaves]

theorem leaves_scanWhile (p : UInt8 → Bool) (mem : Bytes) :
    Leaves (fun r => r.2.1 :: r.2.2) mem.length (scanWhile p mem) := by
  induction mem with
  | nil => simp [scanWhile, Leaves]
  | cons c mem ih =>
    rw [scanWhile]
    split
    · exact ih.bind fun r hr => Nat.le_succ_of_le hr
    · exact le_refl _

theorem leaves_exponentSign (mem : Bytes) :
    Leaves Prod.snd mem.length (exponentSign mem) := by
  cases mem with
  | nil => simp [exponentSign, Leaves]
  | cons c mem =>
    simp only [exponentSign, Leaves]
    split
    · exact le_trans (List.drop_sublist ..).length_le (Nat.le_succ _)
    · exact Nat.le_succ _

theorem leaves_parseNumber (doubles : Doubles Double) (status : CrustStatus) (mem : Bytes) :
    Leaves (fun r : Parsed Double => r.2.2) mem.length (parseNumber doubles status mem) := by
  refine (leaves_scanWhile _ mem).bind ?_
  rintro ⟨val, c, mem₁⟩ hmem₁
  simp only [List.length_cons] at hmem₁
  dsimp only
  split
  · refine (leaves_exponentSign mem₁).bind ?_
    rintro ⟨sign, mem₂⟩ hmem₂
    refine (leaves_scanWhile isDigit mem₂).bind ?_
    rintro ⟨digits, d, mem₃⟩ hmem₃
    simp only [List.length_cons] at hmem₂ hmem₃
    dsimp only
    split
    · exact leaves_ok (by omega)
    · refine (fueled_stol _).bind fun exp _ => ?_
      have hleft : (d :: mem₃).length ≤ mem.length := by simp only [List.length_cons]; omega
      split
      · split
        · simp [Leaves]
        · exact hleft
      · exact (fueled_stol _).bind fun i _ => hleft
  · have hleft : (c :: mem₁).length ≤ mem.length := hmem₁
    split
    · exact leaves_ok (by omega)
    · split
      · split
        · simp [Leaves]
        · exact hleft
      · exact (fueled_stol _).bind fun i _ => hleft

/-! ## Places -/

theorem fueled_jsonEscape (s : Bytes) : Fueled (jsonEscape s) := by
  unfold jsonEscape
  split <;> simp [Leaves]

theorem fueled_toString (j : JSON Double) : Fueled j.toString := by
  cases j with
  | string s => exact fueled_jsonEscape s
  | _ => exact le_refl 0

theorem fueled_fioKey (keys : List (Bytes × Bytes)) (vals : List (Bytes × JSON Double))
    (key : Bytes) : Fueled (fioKey keys vals key) := by
  rw [fioKey]
  split
  · exact (fueled_jsonEscape _).bind fun _ _ => le_refl 0
  · exact le_refl 0

theorem fueled_set (j : JSON Double) (key : Bytes) (v : JSON Double) : Fueled (j.set key v) := by
  cases j with
  | fioObject keys vals =>
    exact ((fueled_fioKey keys vals key).bind fun _ _ => le_refl 0 :
      Fueled (place (.fioObject keys vals) key)).bind fun _ _ => le_refl 0
  | flatObject keys vals =>
    exact ((fueled_fioKey keys vals key).bind fun _ _ => le_refl 0 :
      Fueled (place (.flatObject keys vals) key)).bind fun _ _ => le_refl 0
  | _ => exact le_refl 0

/-! ## Documents -/

theorem fueled_memcmp (mem word : Bytes) : Fueled (memcmp mem word) := by
  rw [memcmp]
  split <;> simp [Leaves]

theorem fueled_finds (overload : Overload) (mem word : Bytes) :
    Fueled (overload.finds mem word) := by
  cases overload with
  | string => exact le_refl 0
  | bytes => exact fueled_memcmp mem word

theorem length_drop_le (mem : Bytes) (n : ℕ) : (mem.drop n).length ≤ mem.length :=
  (List.drop_sublist ..).length_le

theorem leaves_emptyObject (mem : Bytes) :
    Leaves (fun r : JSON Double × Bytes => r.2) mem.length (emptyObject mem) := by
  refine (fueled_memcmp _ _).bind fun fio _ => ?_
  split
  · exact length_drop_le mem 3
  refine (fueled_memcmp _ _).bind fun flat _ => ?_
  split
  · exact length_drop_le mem 4
  · exact le_refl mem.length

theorem leaves_parseBool (overload : Overload) (status : CrustStatus) (mem : Bytes) :
    Leaves (fun r : Parsed Double => r.2.2) mem.length (parseBool overload status mem) := by
  refine (fueled_finds _ _ _).bind fun yes _ => ?_
  split
  · exact length_drop_le mem 4
  refine (fueled_finds _ _ _).bind fun no _ => ?_
  split
  · exact length_drop_le mem 5
  · exact le_refl mem.length

theorem leaves_parseNull (overload : Overload) (status : CrustStatus) (mem : Bytes) :
    Leaves (fun r : Parsed Double => r.2.2) mem.length (parseNull overload status mem) := by
  refine (fueled_finds _ _ _).bind fun null _ => ?_
  split
  · exact length_drop_le mem 4
  · exact le_refl mem.length

theorem fueled_setNext (list : List (JSON Double)) (value : JSON Double) :
    Fueled (setNext list value) := by
  rw [setNext]
  split <;> simp [Leaves]

/-- **The parser keeps within its bound**: two steps for a character it stands at are enough. -/
theorem leaves_parse (doubles : Doubles Double) (overload : Overload) (fuel : ℕ) :
    (∀ status mem, 2 * mem.length + 1 ≤ fuel →
      Leaves (fun r => r.2.2) mem.length (parseNext doubles overload fuel status mem)) ∧
    (∀ status list mem, 2 * mem.length + 2 ≤ fuel →
      Leaves (fun r => r.2.2) mem.length (parseElements doubles overload fuel status list mem)) ∧
    ∀ status obj mem, 2 * mem.length + 2 ≤ fuel →
      Leaves (fun r => r.2.2) mem.length (parseMembers doubles overload fuel status obj mem) := by
  induction fuel with
  | zero => exact ⟨by omega, by omega, by omega⟩
  | succ fuel ih =>
    obtain ⟨hnext, helements, hmembers⟩ := ih
    refine ⟨fun status mem hfuel => ?_, fun status list mem hfuel => ?_,
      fun status obj mem hfuel => ?_⟩
    · rw [parseNext]
      refine (leaves_consumeWs mem).bind fun mem₁ hmem₁ => ?_
      split
      · simp [Leaves]
      rename_i c mem₂
      simp only [List.length_cons] at hmem₁
      split
      · refine (leaves_consumeWs mem₂).bind fun mem₃ hmem₃ => ?_
        split
        · exact leaves_ok (by simp only [List.length_cons] at hmem₃; omega)
        · exact (helements _ _ mem₃ (by omega)).mono (by omega)
      split
      · refine (leaves_emptyObject mem₂).bind fun obj hobj => ?_
        refine (leaves_consumeWs obj.2).bind fun mem₃ hmem₃ => ?_
        split
        · exact leaves_ok (by simp only [List.length_cons] at hmem₃; omega)
        · exact (hmembers _ _ mem₃ (by omega)).mono (by omega)
      split
      · exact (leaves_parseString status mem₂).mono (by omega)
      split
      · exact (leaves_parseBool overload status (c :: mem₂)).mono hmem₁
      split
      · exact (leaves_parseNull overload status (c :: mem₂)).mono hmem₁
      split
      · exact (leaves_parseNumber doubles status (c :: mem₂)).mono hmem₁
      · exact hmem₁
    · rw [parseElements]
      refine (hnext status mem (by omega)).bind fun r hr => ?_
      refine (fueled_setNext list r.1).bind fun list' _ => ?_
      refine (leaves_consumeWs r.2.2).bind fun mem₁ hmem₁ => ?_
      split
      · simp only [List.length_cons] at hmem₁
        exact (helements _ _ _ (by omega)).mono (by omega)
      · exact leaves_ok (by simp only [List.length_cons] at hmem₁; omega)
      · exact leaves_ok (by omega)
    · rw [parseMembers]
      refine (hnext status mem (by omega)).bind fun r hr => ?_
      refine (leaves_consumeWs r.2.2).bind fun mem₁ hmem₁ => ?_
      split
      · simp only [List.length_cons] at hmem₁
        refine (leaves_consumeWs _).bind fun mem₂ hmem₂ => ?_
        refine (hnext _ mem₂ (by omega)).bind fun r' hr' => ?_
        refine (fueled_toString r.1).bind fun name _ => ?_
        refine (fueled_set obj name r'.1).bind fun obj' _ => ?_
        refine (leaves_consumeWs r'.2.2).bind fun mem₃ hmem₃ => ?_
        split
        · simp only [List.length_cons] at hmem₃
          exact (hmembers _ _ _ (by omega)).mono (by omega)
        · exact leaves_ok (by simp only [List.length_cons] at hmem₃; omega)
        · exact leaves_ok (by omega)
      · exact leaves_ok (by omega)

/-- **Loading a document ends**: the parser is given steps enough. -/
theorem load_ne_outOfFuel (doubles : Doubles Double) (str : Bytes) :
    load doubles str ≠ .error .outOfFuel := by
  have hload : Fueled (load doubles str) := by
    rw [load]
    split
    · exact le_refl 0
    · refine ((leaves_parse doubles .string _).1 .success (str ++ [0]) ?_).bind
        fun _ _ => Nat.zero_le 0
      simp only [List.length_append, List.length_singleton]
      omega
  intro h
  rw [h] at hload
  exact hload rfl

end Dcap.JSON
