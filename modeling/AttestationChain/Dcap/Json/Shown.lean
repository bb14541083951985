import AttestationChain.Dcap.Json.Printers

/-!
# Dcap/Json/Shown — what the printers show of a document

Of an ordered object the printers show the members with a number and a key, each under its key
(`shownMembers`), and of a pair they show nothing.  A document is printed just if the strings it
shows are shorter than 4 GiB (`dump_ok_iff`, `dumpVector_ok_iff`).
-/

namespace Dcap.JSON

variable {Double : Type}

/-- The members an ordered object shows, each under the key it shows. -/
def shownMembers (vals : List (Bytes × JSON Double)) : List (Bytes × JSON Double) :=
  vals.filterMap fun kv => (shownKey kv.1).map fun key => (key, kv.2)

/-- The documents that are written inside of one. -/
def parts : JSON Double → List (JSON Double)
  | .object map => map.map Prod.snd
  | .fioObject _ vals | .flatObject _ vals => (shownMembers vals).map Prod.snd
  | .array list => list
  | _ => []

/-- The members that an object of any kind shows. -/
def objectMembers : JSON Double → Option (List (Bytes × JSON Double))
  | .object map => some map
  | .fioObject _ vals | .flatObject _ vals => some (shownMembers vals)
  | _ => none

theorem parts_of_objectMembers {v : JSON Double} {members : List (Bytes × JSON Double)}
    (h : v.objectMembers = some members) : v.parts = members.map Prod.snd := by
  cases v with
  | object map | fioObject keys vals | flatObject keys vals =>
    cases h
    rfl
  | _ => cases h

/-- **A document ends in an empty object**, so many levels down at most: it shows no members, or its
last part ends in one. -/
inductive EndsEmpty : ℕ → JSON Double → Prop
  | empty {n v} (hv : v.objectMembers = some []) : EndsEmpty n v
  | last {n v u} (hu : u ∈ v.parts.getLast?) (h : EndsEmpty n u) : EndsEmpty (n + 1) v

theorem EndsEmpty.mono {n m : ℕ} {v : JSON Double} (h : EndsEmpty n v) (hnm : n ≤ m) :
    EndsEmpty m v := by
  induction h generalizing m with
  | empty hv => exact .empty hv
  | last hu _ ih =>
    obtain ⟨m, rfl⟩ := Nat.exists_eq_add_of_le' (Nat.one_le_of_lt hnm)
    exact .last hu (ih (Nat.le_of_succ_le_succ hnm))

theorem shownMembers_cons (kv : Bytes × JSON Double) (vals : List (Bytes × JSON Double)) :
    shownMembers (kv :: vals) =
      ((shownKey kv.1).map fun key => (key, kv.2)).toList ++ shownMembers vals := by
  rw [shownMembers, List.filterMap_cons]
  cases shownKey kv.1 <;> rfl

theorem mem_shownMembers {vals : List (Bytes × JSON Double)} {key : Bytes} {v : JSON Double}
    (h : (key, v) ∈ shownMembers vals) : v ∈ vals.map Prod.snd := by
  obtain ⟨kv, hkv, heq⟩ := List.mem_filterMap.1 h
  obtain ⟨key', -, heq⟩ := Option.map_eq_some_iff.1 heq
  cases heq
  exact List.mem_map_of_mem hkv

theorem mem_children_of_mem_parts {v u : JSON Double} (h : u ∈ v.parts) : u ∈ v.children := by
  cases v with
  | object map => exact h
  | array list => exact h
  | fioObject keys vals | flatObject keys vals =>
    obtain ⟨kv, hkv, rfl⟩ := List.mem_map.1 h
    exact mem_shownMembers hkv
  | _ => cases h

/-- A document that is written at any depth of another, or that one itself. -/
inductive Shown (w : JSON Double) : JSON Double → Prop
  | self : Shown w w
  | part {v u} (h : u ∈ v.parts) (hw : Shown w u) : Shown w v

/-- What holds wherever something is written. -/
def ShownThroughout (P : JSON Double → Prop) (v : JSON Double) : Prop := ∀ w, Shown w v → P w

theorem shownThroughout_iff {P : JSON Double → Prop} {v : JSON Double} :
    ShownThroughout P v ↔ P v ∧ ∀ u ∈ v.parts, ShownThroughout P u := by
  refine ⟨fun h => ⟨h v .self, fun u hu w hw => h w (.part hu hw)⟩, fun ⟨hv, h⟩ w hw => ?_⟩
  cases hw with
  | self => exact hv
  | part hu hw => exact h _ hu w hw

/-! ## What is printed -/

section Printed

variable {print : ℕ → JSON Double → Except Fault Bytes}

/-- **What is printed** by a printer that only ever fails at a string. -/
theorem printed_iff
    (hstring : ∀ depth s, (∃ t, print depth (.string s) = .ok t) ↔ s.length < uint32Size)
    (hparts : ∀ depth v, (∀ s, v ≠ .string s) →
      ∃ depth', (∃ t, print depth v = .ok t) ↔ ∀ u ∈ v.parts, ∃ t, print depth' u = .ok t)
    (v : JSON Double) :
    ∀ depth, (∃ t, print depth v = .ok t) ↔ ShownThroughout ShortString v := by
  induction v using childrenInduction with
  | h v ih =>
  intro depth
  rw [shownThroughout_iff]
  by_cases hv : ∃ s, v = .string s
  · obtain ⟨s, rfl⟩ := hv
    rw [hstring]
    exact (and_iff_left (List.forall_mem_nil _)).symm
  · obtain ⟨depth', hprint⟩ := hparts depth v fun s hs => hv ⟨s, hs⟩
    have hshort : ShortString v := by
      cases v with
      | string s => exact absurd ⟨s, rfl⟩ hv
      | _ => trivial
    rw [hprint, and_iff_right hshort]
    exact forall₂_congr fun u hu => ih u (mem_children_of_mem_parts hu) depth'

end Printed

variable (doubles : Doubles Double) (tab : Bytes) (inType : Bool)

theorem dumpEntries_shownKey (depth : ℕ) (vals : List (Bytes × JSON Double)) :
    dumpEntries doubles tab inType shownKey depth vals =
      dumpEntries doubles tab inType some depth (shownMembers vals) := by
  induction vals with
  | nil => rfl
  | cons kv vals ih =>
    rw [dumpEntries, shownMembers_cons, ih]
    cases shownKey kv.1 with
    | none => rfl
    | some key => rfl

theorem vectorEntries_shownKey (vals : List (Bytes × JSON Double)) :
    vectorEntries doubles inType shownKey vals =
      vectorEntries doubles inType some (shownMembers vals) := by
  induction vals with
  | nil => rfl
  | cons kv vals ih =>
    rw [vectorEntries, shownMembers_cons, ih]
    cases shownKey kv.1 with
    | none => rfl
    | some key => rfl

theorem dumpEntries_ok_iff (depth : ℕ) (map : List (Bytes × JSON Double)) :
    (∃ ts, dumpEntries doubles tab inType some depth map = .ok ts) ↔
      ∀ u ∈ map.map Prod.snd, ∃ t, dump doubles tab inType depth u = .ok t := by
  rw [dumpEntries_eq, mapM_ok_iff, List.forall_mem_map]
  simp only [exists_bind_ok]

theorem vectorEntries_ok_iff (map : List (Bytes × JSON Double)) :
    (∃ ts, vectorEntries doubles inType some map = .ok ts) ↔
      ∀ u ∈ map.map Prod.snd, ∃ t, dumpVector doubles inType u = .ok t := by
  rw [vectorEntries_eq, mapM_ok_iff, List.forall_mem_map]
  simp only [exists_bind_ok]

/-- **What `dump` prints**: a document whose strings are short, as far as they are shown. -/
theorem dump_ok_iff (depth : ℕ) (v : JSON Double) :
    (∃ t, dump doubles tab inType depth v = .ok t) ↔ ShownThroughout ShortString v := by
  refine printed_iff (fun depth s => ?_) (fun depth v hv => ?_) v depth
  · rw [dump, exists_bind_ok, jsonEscape_ok_iff]
  · cases v with
    | string s => exact absurd rfl (hv s)
    | object map =>
      refine ⟨depth + 1, ?_⟩
      rw [dump, exists_bind_ok]
      exact dumpEntries_ok_iff ..
    | fioObject keys vals =>
      refine ⟨depth + 1, ?_⟩
      rw [dump, exists_bind_ok, dumpEntries_shownKey]
      exact dumpEntries_ok_iff ..
    | flatObject keys vals =>
      refine ⟨depth, ?_⟩
      rw [dump, exists_bind_ok, dumpEntries_shownKey]
      exact dumpEntries_ok_iff ..
    | array list =>
      refine ⟨depth + 1, ?_⟩
      rw [dump, exists_bind_ok, dumpElements_eq]
      exact mapM_ok_iff
    | _ => exact ⟨depth, iff_of_true ⟨_, rfl⟩ (by simp [parts])⟩

/-- **What `dump_vector` prints** is the same. -/
theorem dumpVector_ok_iff (v : JSON Double) :
    (∃ t, dumpVector doubles inType v = .ok t) ↔ ShownThroughout ShortString v := by
  refine @printed_iff _ (fun _ => dumpVector doubles inType) (fun _ s => ?_)
    (fun _ v hv => ⟨0, ?_⟩) v 0
  · rw [dumpVector, exists_bind_ok, jsonEscape_ok_iff]
  · cases v with
    | string s => exact absurd rfl (hv s)
    | object map =>
      rw [dumpVector, exists_bind_ok]
      exact vectorEntries_ok_iff ..
    | fioObject keys vals | flatObject keys vals =>
      rw [dumpVector, exists_bind_ok, vectorEntries_shownKey]
      exact vectorEntries_ok_iff ..
    | array list =>
      rw [dumpVector, exists_bind_ok, vectorElements_eq]
      exact mapM_ok_iff
    | _ => exact iff_of_true ⟨_, rfl⟩ (by simp [parts])

end Dcap.JSON
