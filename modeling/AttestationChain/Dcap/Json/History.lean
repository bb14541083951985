import AttestationChain.Dcap.Json.Ordered
import AttestationChain.Dcap.Json.Printers

/-!
# Dcap/Json/History — an ordered object over its accesses

An ordered object is written, read and erased from, and so is a plain map beside it (`plainAccess`).
The two answer alike, and the two halves of the object stay in step, exactly as long as no access
enters a key that the object cannot come back to (`ordered_agrees_iff`): one that `json_escape`
changes, or whose place has a name of 4 GiB.
-/

namespace Dcap.JSON

open Runs

variable {Double : Type}

/-- What is done to an ordered object under a key. -/
inductive Access (Double : Type)
  | write (key : Bytes) (v : JSON Double)
  | read (key : Bytes)
  | erase (key : Bytes)

namespace Access

def key : Access Double → Bytes
  | .write key _ | .read key | .erase key => key

end Access

/-- One access.  A read leaves a place where there was none. -/
def access (s : Except Fault (JSON Double)) : Access Double → Except Fault (JSON Double)
  | .write key v => s >>= fun j => j.set key v
  | .read key => s >>= fun j => j.index key >>= fun r => .ok r.2
  | .erase key => s >>= fun j => j.erase key

/-- One access to a plain map; its `operator[]` leaves a null where there was nothing. -/
def plainAccess (m : OrderedMap Bytes (JSON Double)) :
    Access Double → OrderedMap Bytes (JSON Double)
  | .write key v => m.insert key v
  | .read key => if (m.lookup key).isSome then m else m.insert key .null
  | .erase key => m.erase key

/-- Where the value of a key is held, or is going to be. -/
def heldUnder (keys : List (Bytes × Bytes)) (vals : List (Bytes × JSON Double)) (key : Bytes) :
    Bytes :=
  (mapFind keys key).getD (numberedKey vals key)

/-- **An access the object can come back to**: a key written or read is one that `json_escape`
leaves as it is, and its value is held under a name shorter than 4 GiB. -/
def ClearAccess (s : Except Fault (JSON Double)) : Access Double → Prop
  | .write key _ | .read key => escaped key = key ∧ ∀ flat keys vals,
      s = .ok (ordered flat keys vals) → (heldUnder keys vals key).length < uint32Size
  | .erase _ => True

theorem clearAccess_ordered {flat : Bool} {keys : List (Bytes × Bytes)}
    {vals : List (Bytes × JSON Double)} {key : Bytes} :
    (escaped key = key ∧ ∀ flat' keys' vals', (.ok (ordered flat keys vals) : Except Fault _) =
      .ok (ordered flat' keys' vals') → (heldUnder keys' vals' key).length < uint32Size) ↔
    escaped key = key ∧ (heldUnder keys vals key).length < uint32Size := by
  refine and_congr_right fun _ => ⟨fun h => h flat keys vals rfl, fun h flat' keys' vals' heq => ?_⟩
  obtain ⟨rfl, rfl⟩ := ordered_inj (Except.ok.inj heq)
  exact h

/-! ## The object and the map -/

/-- **An ordered object holds a map**: in the same order, under keys that `json_escape` leaves as
they are. -/
structure Holds (entries : List (Entry Double)) (keys : List (Bytes × Bytes))
    (vals : List (Bytes × JSON Double)) (m : OrderedMap Bytes (JSON Double)) : Prop
    extends InStep entries keys vals where
  map : m.entries = entries.map fun e => (e.key, e.value)
  plain : ∀ e ∈ entries, escaped e.key = e.key

/-- The state of a run is an ordered object that holds a map, with entries of a kind. -/
def Represents (P : Entry Double → Prop) (flat : Bool) (s : Except Fault (JSON Double))
    (m : OrderedMap Bytes (JSON Double)) : Prop :=
  ∃ entries keys vals, s = .ok (ordered flat keys vals) ∧ Holds entries keys vals m ∧
    ∀ e ∈ entries, P e

variable {P : Entry Double → Prop}

theorem represents_empty (flat : Bool) : Represents P flat (.ok (ordered flat [] [])) ∅ :=
  ⟨[], [], [], rfl, ⟨.nil, rfl, by simp⟩, by simp⟩

namespace Holds

variable {entries : List (Entry Double)} {keys : List (Bytes × Bytes)}
  {vals : List (Bytes × JSON Double)} {m : OrderedMap Bytes (JSON Double)}

variable (h : Holds entries keys vals m)

include h

theorem lookup_key {e : Entry Double} (he : e ∈ entries) : m.lookup e.key = some e.value := by
  rw [OrderedMap.lookup_eq_some_iff, h.map]
  exact List.mem_map_of_mem he

theorem mem_keys_iff {key : Bytes} : key ∈ m.keys ↔ ∃ e ∈ entries, e.key = key := by
  rw [OrderedMap.keys, h.map, List.map_map, List.mem_map]
  rfl

theorem lookup_eq_none {key : Bytes} (hkey : ∀ e ∈ entries, e.key ≠ key) : m.lookup key = none := by
  rw [← Option.not_isSome_iff_eq_none, ← OrderedMap.mem_keys_iff, h.mem_keys_iff]
  exact fun ⟨e, he, heq⟩ => hkey e he heq

/-- What is noted of an entry is read back as it is. -/
theorem jsonEscape_name {e : Entry Double} (he : e ∈ entries) (hshort : e.Short) :
    jsonEscape e.name = .ok e.name := by
  have hlen : e.name.length < uint32Size := hshort
  rw [jsonEscape, if_pos hlen, Entry.name, escaped_named (h.isTag e he), h.plain e he]

theorem fioKey_key {e : Entry Double} (he : e ∈ entries) (hshort : e.Short) :
    fioKey keys vals e.key = .ok (e.name, keys) := by
  rw [fioKey, h.mapFind_keys he]
  dsimp only
  rw [h.jsonEscape_name he hshort]
  rfl

theorem fioKey_new {key : Bytes} (hkey : ∀ e ∈ entries, e.key ≠ key) : fioKey keys vals key =
    .ok (numberedKey vals key, mapSet key (numberedKey vals key) keys) := by
  rw [fioKey, h.mapFind_keys_eq_none_iff.2 hkey]

/-- A new key's place is a new one. -/
theorem mapFind_vals_new {tag key : Bytes} (htag : IsTag tag) (hlt : ∀ e ∈ entries, e.tag < tag) :
    mapFind vals (named tag key) = none := by
  rw [mapFind_eq_none_iff, h.vals, List.map_map, List.mem_map]
  rintro ⟨e, he, heq⟩
  have hname := ((named_inj (h.isTag e he) htag).1 heq).1
  exact List.lt_irrefl tag (hname ▸ hlt e he)

/-- **What is under a key** is what the map has there. -/
theorem place_ordered (flat : Bool) {key : Bytes} (hshort : ∀ e ∈ entries, e.key = key → e.Short) :
    ∃ put, (ordered flat keys vals).place key = .ok ((m.lookup key).getD .null, put) := by
  rw [JSON.place_ordered]
  by_cases hkey : ∃ e ∈ entries, e.key = key
  · obtain ⟨e, he, rfl⟩ := hkey
    rw [h.fioKey_key he (hshort e he rfl), h.lookup_key he]
    refine ⟨_, congrArg Except.ok (Prod.ext ?_ rfl)⟩
    exact congrArg (Option.getD · .null) (h.mapFind_vals he)
  · have hnew : ∀ e ∈ entries, e.key ≠ key := fun e he heq => hkey ⟨e, he, heq⟩
    obtain ⟨tag, htag, hlt, hnum⟩ := h.exists_numberedKey key
    rw [h.fioKey_new hnew, h.lookup_eq_none hnew, hnum]
    refine ⟨_, congrArg Except.ok (Prod.ext ?_ rfl)⟩
    exact congrArg (Option.getD · .null) (h.mapFind_vals_new htag hlt)

/-- **A write is a write.** -/
theorem represents_set (flat : Bool) {key : Bytes} {v : JSON Double} (hplain : escaped key = key)
    (hshort : ∀ e ∈ entries, e.key = key → e.Short) (hP : ∀ e ∈ entries, P e)
    (hput : ∀ e ∈ entries, e.key = key → P { e with value := v })
    (hnew : ∀ tag, (∀ e ∈ entries, e.key ≠ key) → numberedKey vals key = named tag key →
      P ⟨tag, key, v⟩) :
    Represents P flat ((ordered flat keys vals).set key v) (m.insert key v) := by
  change Represents P flat ((ordered flat keys vals).place key >>= fun r => .ok (r.2 v)) _
  rw [JSON.place_ordered]
  by_cases hkey : ∃ e ∈ entries, e.key = key
  · obtain ⟨e, he, rfl⟩ := hkey
    rw [h.fioKey_key he (hshort e he rfl)]
    refine ⟨entries.map (Entry.put e.key v), keys, _, rfl, ⟨h.set he v, ?_, ?_⟩, ?_⟩
    · rw [OrderedMap.entries_insert_of_mem (h.mem_keys_iff.2 ⟨e, he, rfl⟩), h.map,
        OrderedMap.replace, List.map_map, List.map_map]
      refine List.map_congr_left fun e' _ => ?_
      rw [Function.comp_apply, Function.comp_apply, Entry.key_put, Entry.put]
      split
      · exact Prod.ext (‹e'.key = e.key›).symm rfl
      · rfl
    · exact List.forall_mem_map.2 fun e' he' => (Entry.key_put e.key v e').symm ▸ h.plain e' he'
    · refine List.forall_mem_map.2 fun e' he' => ?_
      rw [Entry.put]
      split
      · exact hput e' he' ‹_›
      · exact hP e' he'
  · have hfresh : ∀ e ∈ entries, e.key ≠ key := fun e he heq => hkey ⟨e, he, heq⟩
    obtain ⟨tag, htag, hlt, hnum⟩ := h.exists_numberedKey key
    rw [h.fioKey_new hfresh, hnum]
    refine ⟨entries ++ [⟨tag, key, v⟩], _, _, rfl, ⟨h.concat hfresh htag hlt v, ?_, ?_⟩, ?_⟩
    · rw [OrderedMap.entries_insert_of_notMem fun hmem => hkey (h.mem_keys_iff.1 hmem), h.map,
        List.map_append]
      rfl
    · exact List.forall_mem_append.2 ⟨h.plain, by simpa using hplain⟩
    · exact List.forall_mem_append.2 ⟨hP, by simpa using hnew tag hfresh hnum⟩

/-- **An erase is an erase.** -/
theorem represents_erase (flat : Bool) {key : Bytes}
    (hshort : ∀ e ∈ entries, e.key = key → e.Short) (hP : ∀ e ∈ entries, P e) :
    Represents P flat ((ordered flat keys vals).erase key) (m.erase key) := by
  rw [erase_ordered, fioErase]
  by_cases hkey : ∃ e ∈ entries, e.key = key
  · obtain ⟨e, he, rfl⟩ := hkey
    rw [h.mapFind_keys he]
    dsimp only
    rw [h.jsonEscape_name he (hshort e he rfl)]
    refine ⟨entries.filter fun e' => e'.key ≠ e.key, _, _, rfl, ⟨h.toInStep.erase he, ?_, ?_⟩, ?_⟩
    · rw [OrderedMap.entries_erase, h.map, List.filter_map]
      rfl
    · exact fun e' he' => h.plain e' (List.mem_of_mem_filter he')
    · exact fun e' he' => hP e' (List.mem_of_mem_filter he')
  · have hnew : ∀ e ∈ entries, e.key ≠ key := fun e he heq => hkey ⟨e, he, heq⟩
    rw [h.mapFind_keys_eq_none_iff.2 hnew,
      OrderedMap.erase_of_notMem fun hmem => hkey (h.mem_keys_iff.1 hmem)]
    exact ⟨entries, keys, vals, rfl, h, hP⟩

/-- A read is a write of what is there. -/
theorem access_read (flat : Bool) {key : Bytes} (hshort : ∀ e ∈ entries, e.key = key → e.Short) :
    access (.ok (ordered flat keys vals)) (.read key) =
      (ordered flat keys vals).set key ((m.lookup key).getD .null) := by
  obtain ⟨put, hput⟩ := h.place_ordered flat hshort
  change ((ordered flat keys vals).place key >>= _) >>= _ = (ordered flat keys vals).place key >>= _
  rw [hput]
  rfl

end Holds

theorem plainAccess_read (m : OrderedMap Bytes (JSON Double)) (key : Bytes) :
    plainAccess m (.read key) = m.insert key ((m.lookup key).getD .null) := by
  rw [plainAccess]
  cases hlookup : m.lookup key with
  | none => rfl
  | some v => exact (OrderedMap.insert_lookup hlookup).symm

/-- **What the map answers after an access**: the value last written, none if the key was erased
since, and the null that a read leaves. -/
theorem lookup_plainAccess (m : OrderedMap Bytes (JSON Double)) (a : Access Double) (key' : Bytes) :
    (plainAccess m a).lookup key' = if a.key = key' then
      match a with
      | .write _ v => some v
      | .read key => some ((m.lookup key).getD .null)
      | .erase _ => none
    else m.lookup key' := by
  cases a with
  | write key v => exact OrderedMap.lookup_insert key'
  | read key =>
    rw [plainAccess_read]
    exact OrderedMap.lookup_insert key'
  | erase key => exact OrderedMap.lookup_erase key'

variable {flat : Bool} {m : OrderedMap Bytes (JSON Double)}

theorem represents_clear_set {s : Except Fault (JSON Double)} (h : Represents Entry.Short flat s m)
    {key : Bytes} {v : JSON Double} (hclear : ClearAccess s (.write key v)) :
    Represents Entry.Short flat (s >>= fun j => j.set key v) (m.insert key v) := by
  obtain ⟨entries, keys, vals, rfl, h, hshort⟩ := h
  refine h.represents_set flat hclear.1 (fun e he _ => hshort e he) hshort
    (fun e he _ => hshort e he)
    fun tag hnew hnum => ?_
  have hlen := hclear.2 flat keys vals rfl
  rwa [heldUnder, h.mapFind_keys_eq_none_iff.2 hnew, Option.getD_none, hnum] at hlen

/-- **A clear access keeps the object and the map together.** -/
theorem represents_access (s : Except Fault (JSON Double)) (m : OrderedMap Bytes (JSON Double))
    (a : Access Double) (h : Represents Entry.Short flat s m) (hclear : ClearAccess s a) :
    Represents Entry.Short flat (access s a) (plainAccess m a) := by
  cases a with
  | write key v => exact represents_clear_set h hclear
  | read key =>
    rw [plainAccess_read]
    have hset := represents_clear_set (v := (m.lookup key).getD .null) h hclear
    obtain ⟨entries, keys, vals, rfl, h, hshort⟩ := h
    rw [h.access_read flat fun e he _ => hshort e he]
    exact hset
  | erase key =>
    obtain ⟨entries, keys, vals, rfl, h, hshort⟩ := h
    exact h.represents_erase flat (fun e he _ => hshort e he) hshort

/-! ## What they answer -/

/-- An object answers as a map does: whether a key is there, how many are, and what is under
each. -/
def AnswersAs (j : JSON Double) (m : OrderedMap Bytes (JSON Double)) : Prop :=
  (∀ key, j.hasKey key = (m.lookup key).isSome) ∧ j.size = m.size ∧
    ∀ key, ∃ j', j.index key = .ok ((m.lookup key).getD .null, j')

/-- Where the values are held, as the keys have it. -/
def heldNames (keys : List (Bytes × Bytes)) : Except Fault (List Bytes) :=
  keys.mapM fun kr => jsonEscape kr.2

/-- **The keys and the values are in one-to-one correspondence**: each key leads to a value of its
own, and there are no other values. -/
def OneToOne (keys : List (Bytes × Bytes)) (vals : List (Bytes × JSON Double)) : Prop :=
  (keys.map Prod.fst).Nodup ∧
    ∃ names, heldNames keys = .ok names ∧ names.Nodup ∧ names.Perm (vals.map Prod.fst)

/-- The state of a run is an ordered object that answers as a map does, its two halves in step. -/
def Agrees (flat : Bool) (s : Except Fault (JSON Double)) (m : OrderedMap Bytes (JSON Double)) :
    Prop :=
  ∃ keys vals, s = .ok (ordered flat keys vals) ∧ AnswersAs (ordered flat keys vals) m ∧
    OneToOne keys vals

namespace Holds

variable {entries : List (Entry Double)} {keys : List (Bytes × Bytes)}
  {vals : List (Bytes × JSON Double)} (h : Holds entries keys vals m)
  (hshort : ∀ e ∈ entries, e.Short)

include h hshort

theorem answersAs (flat : Bool) : AnswersAs (ordered flat keys vals) m := by
  refine ⟨fun key => ?_, ?_, fun key => ?_⟩
  · rw [hasKey_ordered]
    by_cases hkey : ∃ e ∈ entries, e.key = key
    · obtain ⟨e, he, rfl⟩ := hkey
      rw [h.mapFind_keys he, h.lookup_key he]
      rfl
    · have hnew : ∀ e ∈ entries, e.key ≠ key := fun e he heq => hkey ⟨e, he, heq⟩
      rw [h.mapFind_keys_eq_none_iff.2 hnew, h.lookup_eq_none hnew]
      rfl
  · rw [size_ordered, OrderedMap.size, h.map, h.keys.length_eq, List.length_map, List.length_map]
  · obtain ⟨put, hput⟩ := h.place_ordered flat fun e he _ => hshort e he
    exact ⟨put ((m.lookup key).getD .null), by rw [index, hput]; rfl⟩

theorem oneToOne : OneToOne keys vals := by
  refine ⟨h.nodup_keys, keys.map Prod.snd, mapM_ok_of_forall fun kr hkr => ?_, ?_⟩
  · obtain ⟨e, he, rfl⟩ := List.mem_map.1 (h.keys.mem_iff.1 hkr)
    exact h.jsonEscape_name he (hshort e he)
  · have hperm : (keys.map Prod.snd).Perm (vals.map Prod.fst) := by
      refine (h.keys.map Prod.snd).trans (List.Perm.of_eq ?_)
      rw [h.vals, List.map_map, List.map_map]
      rfl
    exact ⟨hperm.nodup_iff.2 h.sorted_vals.nodup, hperm⟩

end Holds

theorem agrees_of_represents (s : Except Fault (JSON Double)) (m : OrderedMap Bytes (JSON Double))
    (h : Represents Entry.Short flat s m) : Agrees flat s m := by
  obtain ⟨entries, keys, vals, rfl, h, hshort⟩ := h
  exact ⟨keys, vals, rfl, h.answersAs hshort flat, h.oneToOne hshort⟩

/-- **A key the object cannot come back to** leads to no value. -/
theorem Holds.not_oneToOne_concat {entries : List (Entry Double)} {keys : List (Bytes × Bytes)}
    {vals : List (Bytes × JSON Double)} (h : Holds entries keys vals m) {tag key : Bytes}
    (hkey : ∀ e ∈ entries, e.key ≠ key) (htag : IsTag tag) (hlt : ∀ e ∈ entries, e.tag < tag)
    (hclear : ¬ (escaped key = key ∧ (named tag key).length < uint32Size)) (v : JSON Double) :
    ¬ OneToOne (mapSet key (named tag key) keys) (mapSet (named tag key) v vals) := by
  rintro ⟨-, names, hnames, -, hperm⟩
  have hnext := h.concat hkey htag hlt v
  have hmem : (key, named tag key) ∈ mapSet key (named tag key) keys :=
    hnext.keys.mem_iff.2 (List.mem_map.2 ⟨⟨tag, key, v⟩, by simp, rfl⟩)
  obtain ⟨name, hname, hread⟩ := mem_of_mapM_ok hnames hmem
  rw [jsonEscape] at hread
  split at hread
  · cases hread
    rw [hperm.mem_iff, hnext.vals, List.map_map, List.mem_map] at hname
    obtain ⟨e, he, heq⟩ := hname
    have hsame : e.tag = tag ∧ e.key = escaped key :=
      (named_inj (hnext.isTag e he) htag).1 (heq.trans (escaped_named htag key))
    have hlast : e = ⟨tag, key, v⟩ := hnext.eq_of_tag he (by simp) hsame.1
    rw [hlast] at hsame
    exact hclear ⟨hsame.2.symm, ‹_›⟩
  · cases hread

theorem not_agrees_set {s : Except Fault (JSON Double)} (h : Represents Entry.Short flat s m)
    {key : Bytes} {v : JSON Double} (hclear : ¬ ClearAccess s (.write key v)) :
    ¬ Agrees flat (s >>= fun j => j.set key v) (m.insert key v) := by
  obtain ⟨entries, keys, vals, rfl, h, hshort⟩ := h
  rw [ClearAccess, clearAccess_ordered] at hclear
  -- What is there already is clear, so this is a key entered for the first time.
  have hnew : ∀ e ∈ entries, e.key ≠ key := by
    rintro e he rfl
    refine hclear ⟨h.plain e he, ?_⟩
    rw [heldUnder, h.mapFind_keys he]
    exact hshort e he
  obtain ⟨tag, htag, hlt, hnum⟩ := h.exists_numberedKey key
  rw [heldUnder, h.mapFind_keys_eq_none_iff.2 hnew, Option.getD_none, hnum] at hclear
  rintro ⟨keys', vals', heq, -, hone⟩
  change (ordered flat keys vals).place key >>= (fun r => .ok (r.2 v)) = _ at heq
  rw [JSON.place_ordered, h.fioKey_new hnew, hnum] at heq
  obtain ⟨rfl, rfl⟩ := ordered_inj (Except.ok.inj heq)
  exact h.not_oneToOne_concat hnew htag hlt hclear v hone

/-- **An access that is not clear breaks the correspondence.** -/
theorem not_agrees_access (s : Except Fault (JSON Double)) (m : OrderedMap Bytes (JSON Double))
    (a : Access Double) (h : Represents Entry.Short flat s m) (hclear : ¬ ClearAccess s a) :
    ¬ Agrees flat (access s a) (plainAccess m a) := by
  cases a with
  | write key v => exact not_agrees_set h hclear
  | read key =>
    rw [plainAccess_read]
    have hset := not_agrees_set (v := (m.lookup key).getD .null) h hclear
    obtain ⟨entries, keys, vals, rfl, h, hshort⟩ := h
    rw [h.access_read flat fun e he _ => hshort e he]
    exact hset
  | erase key => exact absurd trivial hclear

/-- **An ordered object is a map**, and its keys and values are in one-to-one correspondence,
through exactly the runs whose accesses are all clear. -/
theorem ordered_agrees_iff (flat : Bool) (tr : List (Access Double)) :
    Guarded access ClearAccess (.ok (ordered flat [] [])) tr ↔
      ∀ pre suf, tr = pre ++ suf →
        Agrees flat (run access (.ok (ordered flat [] [])) pre) (run plainAccess ∅ pre) :=
  guarded_iff_simulates represents_access not_agrees_access agrees_of_represents
    (represents_empty flat)

/-- A quotation mark with a value under it: `json_escape` has it under another name when it is
read. -/
theorem quoted_not_agrees : ¬ ∀ (flat : Bool) (tr pre suf : List (Access Unit)), tr = pre ++ suf →
    Agrees flat (run access (.ok (ordered flat [] [])) pre) (run plainAccess ∅ pre) := by
  intro hagrees
  obtain ⟨keys, vals, hs, ⟨-, -, hindex⟩, -⟩ :=
    hagrees false [.write [34] (.integral 1)] _ [] (List.append_nil _).symm
  have hobject : run access (.ok (ordered false [] [])) [.write [34] (.integral 1)] =
      .ok (ordered false [([34], [48, 45, 34])] [([48, 45, 34], (.integral 1 : JSON Unit))]) := rfl
  obtain ⟨rfl, rfl⟩ := ordered_inj (Except.ok.inj (hobject.symm.trans hs))
  obtain ⟨j', hread⟩ := hindex [34]
  have hnull :
      (ordered false [([34], [48, 45, 34])] [([48, 45, 34], (.integral 1 : JSON Unit))]).index
      [34] = .ok (.null, ordered false [([34], [48, 45, 34])]
        [([48, 45, 34], .integral 1), ([48, 45, 92, 34], .null)]) := rfl
  have hone : (run plainAccess ∅ [.write [34] (.integral 1)]).lookup [34] =
      some (.integral 1 : JSON Unit) := rfl
  rw [hnull, hone] at hread
  cases hread

end Dcap.JSON
