import AttestationChain.Dcap.Json.History
import AttestationChain.Dcap.Json.Shown

/-!
# Dcap/Json/Insertion — the order of an ordered object

The numbers in front of the keys have an ordered object list what is in it in the order of its
insertion: whoever asks for the members, and whichever printer writes them, finds the keys of a
plain map with the same history, in its order.  This goes on until an access comes back to a name of
4 GiB, or a string of that size has been put in, which neither printer gets to the end of
(`lists_in_order_iff`).
-/

namespace Dcap.JSON

open Runs

variable {Double : Type}

/-- A numbered key without its number: what stands behind its first separator, or all of it. -/
def untagged (key : Bytes) : Bytes :=
  if fioSeparater ∈ key then key.drop ((key.takeWhile (· ≠ fioSeparater)).length + 1) else key

/-- `FIOObjectRange`: a pair for each member. -/
def fioObjectRange : JSON Double → List (JSON Double)
  | .fioObject _ vals | .flatObject _ vals => vals.map fun kv => .pair (untagged kv.1) kv.2
  | _ => []

theorem untagged_named {tag : Bytes} (h : IsTag tag) (key : Bytes) :
    untagged (named tag key) = key := by
  rw [untagged, if_pos (by simp [named]), takeWhile_named h, drop_named]

theorem shownKey_named {tag key : Bytes} (h : IsTag tag) (hkey : key ≠ []) :
    shownKey (named tag key) = some key := by
  have hlen : tag.length + 1 < (named tag key).length := by
    have := List.length_pos_iff.2 hkey
    rw [length_named]
    omega
  rw [shownKey, takeWhile_named h, if_pos ⟨hlen, h⟩, drop_named]

/-! ## Accesses -/

/-- What an access puts in under a new key. -/
def Access.value : Access Double → JSON Double
  | .write _ v => v
  | .read _ | .erase _ => .null

/-- An access under a key that is not empty, and that `json_escape` leaves as it is. -/
def PlainAccess (Double : Type) : Type :=
  {a : Access Double // a.key ≠ [] ∧ jsonEscape a.key = .ok a.key}

/-- **An access that leaves a listing**: the name it comes back to, if it does to any, is shorter
than 4 GiB, and so are the strings shown of what it puts in. -/
def ListableAccess (s : Except Fault (JSON Double)) (a : PlainAccess Double) : Prop :=
  (∀ flat keys vals rkey, s = .ok (ordered flat keys vals) → mapFind keys a.1.key = some rkey →
    rkey.length < uint32Size) ∧ ShownThroughout ShortString a.1.value

/-- **A listing of a map**: its entries, in order, are the members that are asked for, and the
entries of either text. -/
def Lists (doubles : Doubles Double) (s : Except Fault (JSON Double))
    (m : OrderedMap Bytes (JSON Double)) : Prop :=
  ∃ keys vals, s = .ok (.fioObject keys vals) ∧
    fioObjectRange (.fioObject keys vals) = m.entries.map (fun e => .pair e.1 e.2) ∧
    (∀ tab inType depth, ∃ entries,
      (m.entries.mapM fun e => dump doubles tab inType (depth + 1) e.2 >>= fun text =>
        .ok (member e.1 (ascii " : ") text)) = .ok entries ∧
      dump doubles tab inType depth (.fioObject keys vals) =
        .ok (block (padding tab depth) (if inType then ascii "fio" else []) entries)) ∧
    ∀ inType, ∃ entries,
      (m.entries.mapM fun e => dumpVector doubles inType e.2 >>= fun text =>
        .ok (member e.1 (ascii ":") text)) = .ok entries ∧
      dumpVector doubles inType (.fioObject keys vals) =
        .ok (ascii "\x7b" ++ (if inType then ascii "fio" else []) ++
          (ascii ",").intercalate entries ++
          ascii "\x7d")

/-- An entry that is shown. -/
def Entry.Showable (e : Entry Double) : Prop := e.key ≠ [] ∧ ShownThroughout ShortString e.value

section Holds

variable {entries : List (Entry Double)} {keys : List (Bytes × Bytes)}
  {vals : List (Bytes × JSON Double)} {m : OrderedMap Bytes (JSON Double)}
  (h : Holds entries keys vals m)

include h

theorem Holds.shownMembers_eq (hne : ∀ e ∈ entries, e.key ≠ []) :
    shownMembers vals = m.entries := by
  rw [shownMembers, h.vals, h.map, List.filterMap_map, ← List.filterMap_eq_map]
  refine List.filterMap_congr fun e he => ?_
  rw [Function.comp_apply, Entry.name, shownKey_named (h.isTag e he) (hne e he)]
  rfl

theorem Holds.fioObjectRange_eq :
    fioObjectRange (.fioObject keys vals) = m.entries.map fun e => .pair e.1 e.2 := by
  rw [fioObjectRange, h.vals, h.map, List.map_map, List.map_map]
  refine List.map_congr_left fun e he => ?_
  rw [Function.comp_apply, Entry.name, untagged_named (h.isTag e he)]
  rfl

theorem Holds.lists (doubles : Doubles Double) (hshow : ∀ e ∈ entries, e.Showable) :
    Lists doubles (.ok (.fioObject keys vals)) m := by
  have hmembers := h.shownMembers_eq fun e he => (hshow e he).1
  have hshort : ∀ u ∈ m.entries.map Prod.snd, ShownThroughout ShortString u := by
    rw [h.map, List.map_map]
    exact List.forall_mem_map.2 fun e he => (hshow e he).2
  refine ⟨keys, vals, rfl, h.fioObjectRange_eq, fun tab inType depth => ?_, fun inType => ?_⟩
  · obtain ⟨ts, hts⟩ := (dumpEntries_ok_iff doubles tab inType (depth + 1) m.entries).2
      fun u hu => (dump_ok_iff doubles tab inType _ u).2 (hshort u hu)
    refine ⟨ts, by rw [← dumpEntries_eq, hts], ?_⟩
    rw [dump, dumpEntries_shownKey, hmembers, hts]
    rfl
  · obtain ⟨ts, hts⟩ := (vectorEntries_ok_iff doubles inType m.entries).2
      fun u hu => (dumpVector_ok_iff doubles inType u).2 (hshort u hu)
    refine ⟨ts, by rw [← hts, vectorEntries_eq]; rfl, ?_⟩
    rw [dumpVector, vectorEntries_shownKey, hmembers, hts]
    rfl

/-- **An access that comes back to a long name** does not end. -/
theorem Holds.access_long (flat : Bool) {e : Entry Double} (he : e ∈ entries) (hlong : ¬ e.Short)
    {a : Access Double} (ha : a.key = e.key) :
    access (.ok (ordered flat keys vals)) a = .error .diverges := by
  have hescape : jsonEscape e.name = .error .diverges := if_neg hlong
  have hplace : (ordered flat keys vals).place e.key = .error .diverges := by
    rw [JSON.place_ordered, fioKey, h.mapFind_keys he]
    dsimp only
    rw [hescape]
    rfl
  cases a with
  | write key v =>
    obtain rfl : key = e.key := ha
    change (ordered flat keys vals).place e.key >>= _ = _
    rw [hplace]
    rfl
  | read key =>
    obtain rfl : key = e.key := ha
    change ((ordered flat keys vals).place e.key >>= _) >>= _ = _
    rw [hplace]
    rfl
  | erase key =>
    obtain rfl : key = e.key := ha
    change (ordered flat keys vals).erase e.key = _
    rw [erase_ordered, fioErase, h.mapFind_keys he]
    dsimp only
    rw [hescape]
    rfl

end Holds

/-! ## Steps -/

/-- **The order of the map**: a new key is the last, an erased one is gone, and the others stay
where they are. -/
theorem keys_plainAccess (m : OrderedMap Bytes (JSON Double)) (a : Access Double) :
    (plainAccess m a).keys = match a with
      | .write key _ | .read key => if key ∈ m.keys then m.keys else m.keys ++ [key]
      | .erase key => m.keys.filter (· ≠ key) := by
  cases a with
  | write key v =>
    rw [plainAccess, OrderedMap.keys_insert]
    congr
  | read key =>
    rw [plainAccess_read, OrderedMap.keys_insert]
    congr
  | erase key => exact OrderedMap.keys_erase

variable {m : OrderedMap Bytes (JSON Double)}

theorem represents_showable_set {entries : List (Entry Double)} {keys : List (Bytes × Bytes)}
    {vals : List (Bytes × JSON Double)} (h : Holds entries keys vals m)
    (hshow : ∀ e ∈ entries, e.Showable) {key : Bytes} {v : JSON Double}
    (hkey : key ≠ [] ∧ jsonEscape key = .ok key)
    (hshort : ∀ e ∈ entries, e.key = key → e.Short) (hv : ShownThroughout ShortString v) :
    Represents Entry.Showable false ((ordered false keys vals).set key v) (m.insert key v) :=
  h.represents_set false (escaped_of_jsonEscape hkey.2) hshort hshow
    (fun e he _ => ⟨(hshow e he).1, hv⟩) fun _ _ _ => ⟨hkey.1, hv⟩

/-- **A listable access keeps the listing.** -/
theorem represents_listable (s : Except Fault (JSON Double)) (m : OrderedMap Bytes (JSON Double))
    (a : PlainAccess Double) (h : Represents Entry.Showable false s m)
    (hlist : ListableAccess s a) :
    Represents Entry.Showable false (access s a.1) (plainAccess m a.1) := by
  obtain ⟨entries, keys, vals, rfl, h, hshow⟩ := h
  obtain ⟨a, ha⟩ := a
  obtain ⟨hback, hv⟩ := hlist
  have hshort : ∀ e ∈ entries, e.key = a.key → e.Short := fun e he heq =>
    hback false keys vals e.name rfl (heq ▸ h.mapFind_keys he)
  cases a with
  | write key v => exact represents_showable_set h hshow ha hshort hv
  | read key =>
    have hread : access (.ok (ordered false keys vals)) (.read key) = _ :=
      h.access_read false hshort
    rw [plainAccess_read, hread]
    refine represents_showable_set h hshow ha hshort ?_
    by_cases hkey : ∃ e ∈ entries, e.key = key
    · obtain ⟨e, he, rfl⟩ := hkey
      rw [h.lookup_key he]
      exact (hshow e he).2
    · rw [h.lookup_eq_none fun e he heq => hkey ⟨e, he, heq⟩]
      exact hv
  | erase key => exact h.represents_erase false hshort hshow

theorem lists_of_represents (doubles : Doubles Double) (s : Except Fault (JSON Double))
    (m : OrderedMap Bytes (JSON Double)) (h : Represents Entry.Showable false s m) :
    Lists doubles s m := by
  obtain ⟨entries, keys, vals, rfl, h, hshow⟩ := h
  exact h.lists doubles hshow

/-- What is listed is printed. -/
theorem Lists.short {doubles : Doubles Double} {s : Except Fault (JSON Double)}
    (h : Lists doubles s m) {key : Bytes} {v : JSON Double} (hv : (key, v) ∈ m.entries) :
    ShownThroughout ShortString v := by
  obtain ⟨keys, vals, -, -, -, hvector⟩ := h
  obtain ⟨ts, hts, -⟩ := hvector false
  obtain ⟨t, -, ht⟩ := mem_of_mapM_ok hts hv
  exact (dumpVector_ok_iff doubles false v).1 (exists_bind_ok.1 ⟨t, ht⟩)

/-- **An access that is not listable leaves no listing.** -/
theorem not_lists_access (doubles : Doubles Double) (s : Except Fault (JSON Double))
    (m : OrderedMap Bytes (JSON Double)) (a : PlainAccess Double)
    (h : Represents Entry.Showable false s m) (hlist : ¬ ListableAccess s a) :
    ¬ Lists doubles (access s a.1) (plainAccess m a.1) := by
  obtain ⟨entries, keys, vals, rfl, h, hshow⟩ := h
  obtain ⟨a, ha⟩ := a
  intro hlists
  refine hlist ⟨fun flat keys' vals' rkey heq hrkey => ?_, ?_⟩
  · obtain ⟨rfl, rfl⟩ := ordered_inj (Except.ok.inj heq)
    by_contra hlong
    obtain ⟨e, he, hkey⟩ : ∃ e ∈ entries, e.key = a.key := by
      by_contra hnew
      rw [h.mapFind_keys_eq_none_iff.2 fun e he heq => hnew ⟨e, he, heq⟩] at hrkey
      cases hrkey
    obtain rfl : e.name = rkey := by
      rw [← hkey, h.mapFind_keys he] at hrkey
      exact Option.some.inj hrkey
    obtain ⟨keys', vals', hs, -⟩ := hlists
    rw [h.access_long false he hlong hkey.symm] at hs
    cases hs
  · cases a with
    | write key v => exact hlists.short (OrderedMap.mem_entries_insert m key v)
    | read key | erase key => exact (dumpVector_ok_iff doubles false _).1 ⟨_, rfl⟩

/-- **An ordered object keeps the order of insertion**: it lists the keys of a plain map with the
same history, in its order, through exactly the runs whose accesses are all listable. -/
theorem lists_in_order_iff (doubles : Doubles Double) (tr : List (PlainAccess Double)) :
    Guarded (fun s a => access s a.1) ListableAccess (.ok (.fioObject [] [])) tr ↔
      ∀ pre suf, tr = pre ++ suf →
        Lists doubles (run (fun s a => access s a.1) (.ok (.fioObject [] [])) pre)
          (run (fun m a => plainAccess m a.1) ∅ pre) :=
  guarded_iff_simulates represents_listable (not_lists_access doubles) (lists_of_represents doubles)
    (represents_empty false)

/-- A key that is two characters short of 4 GiB, and set twice: its name is not. -/
theorem long_not_listed : ¬ ∀ tr pre suf : List (PlainAccess Unit), tr = pre ++ suf →
    Lists plainDoubles (run (fun s a => access s a.1) (.ok (.fioObject [] [])) pre)
      (run (fun m a => plainAccess m a.1) ∅ pre) := by
  intro hlists
  obtain ⟨key, hlen, hplain⟩ : ∃ key : Bytes, key.length = uint32Size - 2 ∧
      ∀ c ∈ key, PlainByte c :=
    ⟨List.replicate (uint32Size - 2) 97, List.length_replicate, fun c hc =>
      List.eq_of_mem_replicate hc ▸ by decide⟩
  have hescape : jsonEscape key = .ok key := by
    rw [jsonEscape, hlen, if_pos (by decide), escaped_plain hplain]
  have hne : key ≠ [] := List.length_pos_iff.1 (by rw [hlen]; decide)
  let write : PlainAccess Unit := ⟨.write key .null, hne, hescape⟩
  have hlong : ¬ (named [48] key).length < uint32Size := by
    rw [length_named, hlen]
    decide
  have hholds : Holds [⟨[48], key, .null⟩] [(key, named [48] key)]
      [(named [48] key, (.null : JSON Unit))] ⟨[(key, .null)], List.nodup_singleton key⟩ :=
    ⟨⟨by simp [IsTag, isNumber, isDigit], by simp, by simp, .refl _, rfl⟩, rfl, by
      simpa using escaped_plain hplain⟩
  obtain ⟨keys, vals, hs, -⟩ := hlists [write, write] _ [] (List.append_nil _).symm
  have hdiverges : run (fun s a => access s a.1) (.ok (.fioObject [] [])) [write, write] =
      .error .diverges :=
    hholds.access_long false (List.mem_singleton_self _) hlong (a := .write key .null) rfl
  rw [hdiverges] at hs
  cases hs

end Dcap.JSON
