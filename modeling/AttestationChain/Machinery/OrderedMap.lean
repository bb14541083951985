import Mathlib.Data.List.Nodup
import Mathlib.Logic.Basic
import Mathlib.Tactic.Common

/-!
# Machinery/OrderedMap — a map that remembers the order of its keys

A key that is set for the first time goes to the end; one that is set again stays where it is; one
that is erased and set again goes to the end anew.  As a map it is read like any other
(`lookup_insert`, `lookup_erase`), and `keys_insert` and `keys_erase` say what becomes of the order.
-/

/-- A map with an order: its entries, no two under one key. -/
structure OrderedMap (K V : Type*) where
  entries : List (K × V)
  nodup : (entries.map Prod.fst).Nodup

namespace OrderedMap

variable {K V : Type*}

/-- The keys, in the order of their insertion. -/
def keys (m : OrderedMap K V) : List K := m.entries.map Prod.fst

def size (m : OrderedMap K V) : ℕ := m.entries.length

instance : EmptyCollection (OrderedMap K V) := ⟨⟨[], List.nodup_nil⟩⟩

@[simp] theorem entries_empty : (∅ : OrderedMap K V).entries = [] := rfl

@[ext] theorem ext {m m' : OrderedMap K V} (h : m.entries = m'.entries) : m = m' := by
  cases m
  cases m'
  cases h
  rfl

variable [DecidableEq K]

/-- The value under a key. -/
def lookup (m : OrderedMap K V) (k : K) : Option V :=
  (m.entries.find? fun e => e.1 = k).map Prod.snd

/-- The entries with the value under a key replaced. -/
def replace (k : K) (v : V) (entries : List (K × V)) : List (K × V) :=
  entries.map fun e => if e.1 = k then (k, v) else e

theorem map_fst_replace (k : K) (v : V) (entries : List (K × V)) :
    (replace k v entries).map Prod.fst = entries.map Prod.fst := by
  rw [replace, List.map_map]
  refine List.map_congr_left fun e _ => ?_
  rw [Function.comp_apply]
  split
  · exact Eq.symm ‹_›
  · rfl

omit [DecidableEq K] in
theorem nodup_append_of_notMem {m : OrderedMap K V} {k : K} (h : k ∉ m.keys) (v : V) :
    ((m.entries ++ [(k, v)]).map Prod.fst).Nodup := by
  rw [List.map_append, List.map_singleton]
  refine List.nodup_append.2 ⟨m.nodup, List.nodup_singleton k, fun a ha b hb hab => h ?_⟩
  have hk : a = k := hab.trans (List.mem_singleton.1 hb)
  exact hk ▸ ha

/-- A key set: where it is, or at the end. -/
def insert (m : OrderedMap K V) (k : K) (v : V) : OrderedMap K V :=
  if h : k ∈ m.keys then
    ⟨replace k v m.entries, by rw [map_fst_replace]; exact m.nodup⟩
  else ⟨m.entries ++ [(k, v)], nodup_append_of_notMem h v⟩

/-- A key erased, with its value. -/
def erase (m : OrderedMap K V) (k : K) : OrderedMap K V :=
  ⟨m.entries.filter fun e => e.1 ≠ k, (List.filter_sublist.map Prod.fst).nodup m.nodup⟩

variable {m : OrderedMap K V} {k : K} {v : V}

theorem entries_insert_of_mem (h : k ∈ m.keys) :
    (m.insert k v).entries = replace k v m.entries := by
  rw [insert, dif_pos h]

theorem entries_insert_of_notMem (h : k ∉ m.keys) :
    (m.insert k v).entries = m.entries ++ [(k, v)] := by
  rw [insert, dif_neg h]

theorem entries_erase : (m.erase k).entries = m.entries.filter fun e => e.1 ≠ k := rfl

theorem mem_keys_iff : k ∈ m.keys ↔ (m.lookup k).isSome := by
  rw [lookup, Option.isSome_map, List.find?_isSome, keys, List.mem_map]
  simp

theorem lookup_eq_some_iff : m.lookup k = some v ↔ (k, v) ∈ m.entries := by
  rw [lookup, Option.map_eq_some_iff]
  constructor
  · rintro ⟨⟨k', v'⟩, hfind, rfl⟩
    obtain rfl : k' = k := by simpa using List.find?_some hfind
    exact List.mem_of_find?_eq_some hfind
  · intro hmem
    obtain ⟨⟨k', v'⟩, hfind⟩ := Option.isSome_iff_exists.1
      (List.find?_isSome.2 ⟨(k, v), hmem, by simp⟩ : (m.entries.find? fun e => e.1 = k).isSome)
    obtain rfl : k' = k := by simpa using List.find?_some hfind
    have heq := List.inj_on_of_nodup_map m.nodup (List.mem_of_find?_eq_some hfind) hmem rfl
    exact ⟨(k', v'), hfind, congrArg Prod.snd heq⟩

/-- **The value last set**, and no other. -/
theorem lookup_insert (k' : K) :
    (m.insert k v).lookup k' = if k = k' then some v else m.lookup k' := by
  refine Option.ext fun w => ?_
  rw [lookup_eq_some_iff]
  by_cases hmem : k ∈ m.keys
  · rw [entries_insert_of_mem hmem, replace, List.mem_map]
    split
    · rename_i hk
      subst hk
      obtain ⟨⟨k', v'⟩, he, rfl⟩ := List.mem_map.1 hmem
      constructor
      · rintro ⟨e, -, heq⟩
        split at heq
        · exact congrArg some (congrArg Prod.snd heq)
        · exact absurd (congrArg Prod.fst heq) ‹_›
      · intro hw
        cases hw
        exact ⟨(k', v'), he, if_pos rfl⟩
    · rename_i hk
      rw [lookup_eq_some_iff]
      constructor
      · rintro ⟨e, he, heq⟩
        split at heq
        · exact absurd (congrArg Prod.fst heq) hk
        · exact heq ▸ he
      · exact fun he => ⟨(k', w), he, if_neg (Ne.symm hk)⟩
  · rw [entries_insert_of_notMem hmem, List.mem_append, List.mem_singleton]
    split
    · rename_i hk
      subst hk
      constructor
      · rintro (he | he)
        · exact absurd (List.mem_map_of_mem he) hmem
        · exact congrArg some (congrArg Prod.snd he).symm
      · intro hw
        cases hw
        exact .inr rfl
    · rename_i hk
      rw [lookup_eq_some_iff, or_iff_left]
      exact fun he => hk (congrArg Prod.fst he).symm

theorem mem_entries_insert (m : OrderedMap K V) (k : K) (v : V) : (k, v) ∈ (m.insert k v).entries :=
  lookup_eq_some_iff.1 ((lookup_insert k).trans (if_pos rfl))

/-- **An erased key has no value**, and the others keep theirs. -/
theorem lookup_erase (k' : K) :
    (m.erase k).lookup k' = if k = k' then none else m.lookup k' := by
  refine Option.ext fun w => ?_
  rw [lookup_eq_some_iff, erase, List.mem_filter]
  split
  · rename_i hk
    simp [hk]
  · rename_i hk
    rw [lookup_eq_some_iff]
    exact ⟨And.left, fun he => ⟨he, by simpa using Ne.symm hk⟩⟩

/-- **The order**: a new key is the last… -/
theorem keys_insert : (m.insert k v).keys = if k ∈ m.keys then m.keys else m.keys ++ [k] := by
  split
  · rename_i h
    rw [keys, entries_insert_of_mem h, map_fst_replace, keys]
  · rename_i h
    rw [keys, entries_insert_of_notMem h, List.map_append, keys]
    rfl

/-- …and an erased one leaves the others as they are. -/
theorem keys_erase : (m.erase k).keys = m.keys.filter (· ≠ k) := by
  rw [keys, keys, erase, List.filter_map]
  rfl

/-- Setting a key to what it has changes nothing. -/
theorem insert_lookup (h : m.lookup k = some v) : m.insert k v = m := by
  have hmem : k ∈ m.keys := mem_keys_iff.2 (by rw [h]; rfl)
  refine ext ?_
  rw [entries_insert_of_mem hmem, replace]
  refine (List.map_congr_left fun e he => ?_).trans (List.map_id _)
  split
  · rename_i hk
    exact List.inj_on_of_nodup_map m.nodup (lookup_eq_some_iff.1 h) he hk.symm
  · rfl

/-- Erasing a key that is not there changes nothing. -/
theorem erase_of_notMem (h : k ∉ m.keys) : m.erase k = m := by
  refine ext (List.filter_eq_self.2 fun e he => decide_eq_true ?_)
  exact fun hk => h (hk ▸ List.mem_map_of_mem he)

end OrderedMap
