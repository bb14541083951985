import Mathlib.Data.List.AList
import Mathlib.Data.List.Perm.Basic

/-!
# Machinery/DoubleMap — a map under two keys, read by both or by the first alone

A double map is Mathlib's `AList` over pairs of keys.  It is read pointwise (`lookup`, `getD`),
written pointwise (`insert`, `mutate`), and walked by its first key: `prefixEntries k₁` lists what
is stored under `k₁`, once per second key (`prefixEntries_keys_nodup`, `mem_prefixEntries`).
-/

/-- A map under two keys. -/
abbrev DoubleMap (K₁ K₂ V : Type) := AList (fun _ : K₁ × K₂ => V)

namespace DoubleMap

variable {K₁ K₂ V : Type} [DecidableEq K₁] [DecidableEq K₂]

/-- The value under a pair of keys, or the default of the map. -/
def getD (m : DoubleMap K₁ K₂ V) (d : V) (k₁ : K₁) (k₂ : K₂) : V := (m.lookup (k₁, k₂)).getD d

/-- Rewrite the value under a pair of keys, starting from the default where nothing is stored. -/
def mutate (m : DoubleMap K₁ K₂ V) (d : V) (k₁ : K₁) (k₂ : K₂) (f : V → V) : DoubleMap K₁ K₂ V :=
  m.insert (k₁, k₂) (f (m.getD d k₁ k₂))

/-- What is stored under a first key, each with its second key. -/
def prefixEntries (m : DoubleMap K₁ K₂ V) (k₁ : K₁) : List (K₂ × V) :=
  (m.entries.filter (fun e => e.1.1 = k₁)).map fun e => (e.1.2, e.2)

@[simp] theorem getD_empty (d : V) (k₁ : K₁) (k₂ : K₂) :
    getD (∅ : DoubleMap K₁ K₂ V) d k₁ k₂ = d := by simp [getD]

theorem getD_mutate_self (m : DoubleMap K₁ K₂ V) (d : V) (k₁ : K₁) (k₂ : K₂) (f : V → V) :
    (m.mutate d k₁ k₂ f).getD d k₁ k₂ = f (m.getD d k₁ k₂) := by
  rw [getD, mutate, AList.lookup_insert, Option.getD_some]

theorem getD_mutate_of_ne (m : DoubleMap K₁ K₂ V) (d : V) {k₁ a : K₁} {k₂ b : K₂} (f : V → V)
    (h : (a, b) ≠ (k₁, k₂)) : (m.mutate d k₁ k₂ f).getD d a b = m.getD d a b := by
  rw [getD, mutate, AList.lookup_insert_ne h, ← getD]

/-- **Reading after a rewrite**: only the pair of keys rewritten changes. -/
theorem getD_mutate (m : DoubleMap K₁ K₂ V) (d : V) (k₁ a : K₁) (k₂ b : K₂) (f : V → V) :
    (m.mutate d k₁ k₂ f).getD d a b
      = if (a, b) = (k₁, k₂) then f (m.getD d a b) else m.getD d a b := by
  by_cases h : (a, b) = (k₁, k₂)
  · obtain ⟨rfl, rfl⟩ := Prod.mk.inj h
    rw [if_pos rfl, getD_mutate_self]
  · rw [if_neg h, getD_mutate_of_ne m d f h]

/-! ## Walking a first key -/

theorem mem_prefixEntries {m : DoubleMap K₁ K₂ V} {k₁ : K₁} {k₂ : K₂} {v : V} :
    (k₂, v) ∈ m.prefixEntries k₁ ↔ m.lookup (k₁, k₂) = some v := by
  have hlookup : m.lookup (k₁, k₂) = some v ↔ (⟨(k₁, k₂), v⟩ : Σ _ : K₁ × K₂, V) ∈ m.entries := by
    rw [← AList.mem_lookup_iff, Option.mem_def]
  rw [hlookup, prefixEntries, List.mem_map]
  constructor
  · rintro ⟨⟨⟨a, b⟩, w⟩, hmem, heq⟩
    obtain ⟨rfl, rfl⟩ := Prod.mk.inj heq
    have hkey : a = k₁ := by simpa using (List.mem_filter.1 hmem).2
    exact hkey ▸ (List.mem_filter.1 hmem).1
  · intro hmem
    exact ⟨_, List.mem_filter.2 ⟨hmem, by simp⟩, rfl⟩

omit [DecidableEq K₂] in
/-- A second key is listed once. -/
theorem prefixEntries_keys_nodup (m : DoubleMap K₁ K₂ V) (k₁ : K₁) :
    ((m.prefixEntries k₁).map Prod.fst).Nodup := by
  have hkeys : ((m.entries.filter fun e => e.1.1 = k₁).map Sigma.fst).Nodup :=
    (List.filter_sublist.map Sigma.fst).nodup m.keys_nodup
  have hsnd : (m.prefixEntries k₁).map Prod.fst
      = ((m.entries.filter fun e => e.1.1 = k₁).map Sigma.fst).map Prod.snd := by
    simp [prefixEntries, Function.comp_def]
  rw [hsnd]
  refine (List.nodup_map_iff_inj_on hkeys).2 ?_
  have hfst : ∀ k ∈ (m.entries.filter fun e => e.1.1 = k₁).map Sigma.fst, k.1 = k₁ := by
    intro k hk
    obtain ⟨e, he, rfl⟩ := List.mem_map.1 hk
    simpa using (List.mem_filter.1 he).2
  exact fun k hk k' hk' h => Prod.ext ((hfst k hk).trans (hfst k' hk').symm) h

/-- The second keys in use under a first key. -/
theorem mem_prefixEntries_keys {m : DoubleMap K₁ K₂ V} {k₁ : K₁} {k₂ : K₂} :
    k₂ ∈ (m.prefixEntries k₁).map Prod.fst ↔ (m.lookup (k₁, k₂)).isSome := by
  rw [List.mem_map, Option.isSome_iff_exists]
  constructor
  · rintro ⟨⟨b, v⟩, hmem, rfl⟩
    exact ⟨v, mem_prefixEntries.1 hmem⟩
  · rintro ⟨v, hv⟩
    exact ⟨(k₂, v), mem_prefixEntries.2 hv, rfl⟩

end DoubleMap
