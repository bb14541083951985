import AttestationChain.Dcap.Json.Dump
import AttestationChain.Dcap.Json.Parse

/-!
# Dcap/Json/Printers — what the two printers have in common

Both write a document's parts in order, with blanks between them that differ (`IsPrinter`).  What is
printed is settled by that: a document is printed if its strings are shorter than 4 GiB
(`IsPrinter.ok_iff`), and a reading of it need not know which printer it was.
-/

namespace Dcap.JSON

variable {Double : Type}

/-! ## The documents inside of one -/

/-- The documents a document holds. -/
def children : JSON Double → List (JSON Double)
  | .object map => map.map Prod.snd
  | .fioObject _ vals => vals.map Prod.snd
  | .flatObject _ vals => vals.map Prod.snd
  | .pair _ v => [v]
  | .array list => list
  | _ => []

theorem sizeOf_snd_lt {map : List (Bytes × JSON Double)} {v : JSON Double}
    (h : v ∈ map.map Prod.snd) : sizeOf v < sizeOf map := by
  obtain ⟨⟨key, w⟩, hkv, rfl⟩ := List.mem_map.1 h
  have := List.sizeOf_lt_of_mem hkv
  simp only [Prod.mk.sizeOf_spec] at this ⊢
  omega

theorem sizeOf_lt_of_mem_children {v w : JSON Double} (h : w ∈ v.children) :
    sizeOf w < sizeOf v := by
  cases v with
  | object map =>
    have := sizeOf_snd_lt h
    simp only [object.sizeOf_spec]
    omega
  | fioObject keys vals =>
    have := sizeOf_snd_lt h
    simp only [fioObject.sizeOf_spec]
    omega
  | flatObject keys vals =>
    have := sizeOf_snd_lt h
    simp only [flatObject.sizeOf_spec]
    omega
  | pair first second =>
    cases List.mem_singleton.1 h
    simp only [pair.sizeOf_spec]
    omega
  | array list =>
    have := @List.sizeOf_lt_of_mem _ _ _ list h
    simp only [array.sizeOf_spec]
    omega
  | _ => cases h

/-- **Induction over a document**, by the documents it holds. -/
@[elab_as_elim]
theorem childrenInduction {P : JSON Double → Prop} (h : ∀ v, (∀ w ∈ v.children, P w) → P v) (v) :
    P v :=
  h v fun w _ => childrenInduction h w
termination_by sizeOf v
decreasing_by exact sizeOf_lt_of_mem_children ‹_›

/-- A document at any depth of another, or that one itself. -/
inductive Inside (w : JSON Double) : JSON Double → Prop
  | self : Inside w w
  | child {v u} (h : u ∈ v.children) (hw : Inside w u) : Inside w v

/-- What holds at every depth. -/
def Throughout (P : JSON Double → Prop) (v : JSON Double) : Prop := ∀ w, Inside w v → P w

theorem throughout_iff {P : JSON Double → Prop} {v : JSON Double} :
    Throughout P v ↔ P v ∧ ∀ u ∈ v.children, Throughout P u := by
  refine ⟨fun h => ⟨h v .self, fun u hu w hw => h w (.child hu hw)⟩, fun ⟨hv, h⟩ w hw => ?_⟩
  cases hw with
  | self => exact hv
  | child hu hw => exact h _ hu w hw

theorem throughout_leaf {P : JSON Double → Prop} {v : JSON Double} (h : v.children = []) :
    Throughout P v ↔ P v := by
  rw [throughout_iff, h, and_iff_left (List.forall_mem_nil _)]

theorem throughout_array {P : JSON Double → Prop} {list : List (JSON Double)} :
    Throughout P (.array list) ↔ P (.array list) ∧ ∀ v ∈ list, Throughout P v := throughout_iff

theorem throughout_object {P : JSON Double → Prop} {map : List (Bytes × JSON Double)} :
    Throughout P (.object map) ↔ P (.object map) ∧ ∀ kv ∈ map, Throughout P kv.2 := by
  rw [throughout_iff, children, List.forall_mem_map]

/-- No ordered object, no pair and no double. -/
def IsSimple : JSON Double → Prop
  | .fioObject _ _ | .flatObject _ _ | .pair _ _ | .floating _ => False
  | _ => True

/-- A string that `json_escape` gets to the end of. -/
def ShortString : JSON Double → Prop
  | .string s => s.length < uint32Size
  | _ => True

/-- A key that `json_escape` gets to the end of when it is read back: it is held escaped. -/
def ShortName (name : Bytes) : Prop := ∀ x, name = escaped x → x.length < uint32Size

def ShortKeys : JSON Double → Prop
  | .object map => ∀ kv ∈ map, ShortName kv.1
  | _ => True

/-! ## Parts and their texts -/

section Parts

variable {α β : Type} {f : α → Except Fault β} {l : List α}

theorem mapM_ok_iff : (∃ ts, l.mapM f = .ok ts) ↔ ∀ a ∈ l, ∃ t, f a = .ok t := by
  induction l with
  | nil => exact iff_of_true ⟨[], rfl⟩ (by simp)
  | cons a l ih =>
    rw [List.forall_mem_cons, ← ih, List.mapM_cons]
    constructor
    · rintro ⟨ts, h⟩
      obtain ⟨t, ha, h⟩ := bind_eq_ok.1 h
      obtain ⟨ts', hl, -⟩ := bind_eq_ok.1 h
      exact ⟨⟨t, ha⟩, ts', hl⟩
    · rintro ⟨⟨t, ha⟩, ts, hl⟩
      rw [ha, hl]
      exact ⟨t :: ts, rfl⟩

theorem mapM_ok_of_forall {g : α → β} (h : ∀ a ∈ l, f a = .ok (g a)) :
    l.mapM f = .ok (l.map g) := by
  induction l with
  | nil => rfl
  | cons a l ih =>
    rw [List.mapM_cons, h a (by simp), ih fun b hb => h b (by simp [hb])]
    rfl

theorem mem_of_mapM_ok {ts : List β} (h : l.mapM f = .ok ts) {a : α} (ha : a ∈ l) :
    ∃ t ∈ ts, f a = .ok t := by
  induction l generalizing ts with
  | nil => cases ha
  | cons b l ih =>
    rw [List.mapM_cons] at h
    obtain ⟨t, hb, h⟩ := bind_eq_ok.1 h
    obtain ⟨ts', hl, h⟩ := bind_eq_ok.1 h
    cases h
    rcases List.mem_cons.1 ha with rfl | ha
    · exact ⟨t, by simp, hb⟩
    · obtain ⟨t', ht', ha⟩ := ih hl ha
      exact ⟨t', by simp [ht'], ha⟩

/-- The parts of a list that was printed are what is printed of its elements. -/
theorem mapM_ok_texts {ts : List β} (h : l.mapM f = .ok ts) {text : α → β}
    (htext : ∀ a t, f a = .ok t → text a = t) : ts = l.map text ∧ ∀ a ∈ l, f a = .ok (text a) := by
  induction l generalizing ts with
  | nil =>
    cases h
    exact ⟨rfl, List.forall_mem_nil _⟩
  | cons a l ih =>
    rw [List.mapM_cons] at h
    obtain ⟨t, ha, h⟩ := bind_eq_ok.1 h
    obtain ⟨ts', hl, h⟩ := bind_eq_ok.1 h
    obtain ⟨rfl, hall⟩ := ih hl
    obtain rfl := htext a t ha
    cases h
    exact ⟨rfl, List.forall_mem_cons.2 ⟨ha, hall⟩⟩

end Parts

/-- What is printed, where something is. -/
theorem exists_text (print : JSON Double → Except Fault Bytes) :
    ∃ text : JSON Double → Bytes, ∀ u t, print u = .ok t → text u = t :=
  ⟨fun u => (print u).toOption.getD [], fun _ _ ht => congrArg (fun r => r.toOption.getD []) ht⟩

/-! ## Printers -/

/-- Blanks. -/
def Blank (b : Bytes) : Prop := ∀ c ∈ b, isSpace c = true

theorem blank_nil : Blank [] := List.forall_mem_nil _

theorem Blank.newline {b : Bytes} (h : Blank b) : Blank (10 :: b) :=
  List.forall_mem_cons.2 ⟨rfl, h⟩

theorem Blank.drop {b : Bytes} (h : Blank b) (n : ℕ) : Blank (b.drop n) :=
  fun c hc => h c (List.mem_of_mem_drop hc)

theorem Blank.append {a b : Bytes} (ha : Blank a) (hb : Blank b) : Blank (a ++ b) :=
  List.forall_mem_append.2 ⟨ha, hb⟩

/-- A character with blanks around it. -/
def Spaced (c : UInt8) (sep : Bytes) : Prop := ∃ a b, Blank a ∧ Blank b ∧ sep = a ++ c :: b

/-- The parts of a container, with blanks inside of its brackets. -/
def between (open_ close : UInt8) (a sep z : Bytes) (parts : List Bytes) : Bytes :=
  open_ :: (a ++ sep.intercalate parts ++ z ++ [close])

/-- A member, behind what separates it from its key. -/
def member (key colon text : Bytes) : Bytes := 34 :: (key ++ 34 :: (colon ++ text))

/-- **A printer**, by its depth: what it writes for a document without anything ordered, with
`closing` blanks in front of the bracket that closes what is not empty. -/
structure IsPrinter (closing : ℕ → ℕ) (print : ℕ → JSON Double → Except Fault Bytes) : Prop where
  null : ∀ depth, print depth .null = .ok (ascii "null")
  boolean : ∀ depth b, print depth (.boolean b) = .ok (if b then ascii "true" else ascii "false")
  integral : ∀ depth i, print depth (.integral i) = .ok (toDecimal i)
  string : ∀ depth s, print depth (.string s) = jsonEscape s >>= fun s => .ok (34 :: (s ++ [34]))
  hash : ∀ depth h, print depth (.hash h) = .ok (34 :: (hashTag ++ hexstring h ++ [34]))
  buffer : ∀ depth b, print depth (.buffer b) = .ok (34 :: (buffTag ++ hexstring b ++ [34]))
  array : ∀ depth list, ∃ a sep z, Blank a ∧ Spaced 44 sep ∧ Blank z ∧ z.length = closing depth ∧
    print depth (.array list) =
      list.mapM (print (depth + 1)) >>= fun texts => .ok (between 91 93 a sep z texts)
  object : ∀ depth map, ∃ a colon sep z, Blank a ∧ Spaced 58 colon ∧ Spaced 44 sep ∧ Blank z ∧
    (if map = [] then a = [] ∧ z = [] else z.length = closing depth) ∧
    print depth (.object map) =
      (map.mapM fun kv => print (depth + 1) kv.2 >>= fun text => .ok (member kv.1 colon text)) >>=
        fun texts => .ok (between 123 125 a sep z texts)

/-- Likewise the members of an object. -/
theorem members_texts {print : JSON Double → Except Fault Bytes} {map : List (Bytes × JSON Double)}
    {colon : Bytes} {ts : List Bytes}
    (h : (map.mapM fun kv => print kv.2 >>= fun text => .ok (member kv.1 colon text)) = .ok ts)
    {text : JSON Double → Bytes} (htext : ∀ u t, print u = .ok t → text u = t) :
    ts = (map.map fun kv => member kv.1 colon (text kv.2)) ∧
      ∀ kv ∈ map, print kv.2 = .ok (text kv.2) := by
  have hmember : ∀ (kv : Bytes × JSON Double) t, (print kv.2 >>= fun text =>
      .ok (member kv.1 colon text)) = .ok t → member kv.1 colon (text kv.2) = t := by
    intro kv t ht
    obtain ⟨t', ht', ht⟩ := bind_eq_ok.1 ht
    rw [htext _ t' ht']
    exact Except.ok.inj ht
  obtain ⟨hts, hmembers⟩ := mapM_ok_texts h hmember
  refine ⟨hts, fun kv hkv => ?_⟩
  obtain ⟨t, ht, -⟩ := bind_eq_ok.1 (hmembers kv hkv)
  rw [htext _ t ht, ht]

section IsPrinter

variable {closing : ℕ → ℕ} {print : ℕ → JSON Double → Except Fault Bytes}

theorem exists_bind_ok {α β : Type} {r : Except Fault α} {f : α → β} :
    (∃ b, (r >>= fun a => .ok (f a)) = .ok b) ↔ ∃ a, r = .ok a := by
  cases r with
  | ok a => exact iff_of_true ⟨f a, rfl⟩ ⟨a, rfl⟩
  | error fault => exact iff_of_false (by rintro ⟨b, h⟩; cases h) (by rintro ⟨a, h⟩; cases h)

theorem jsonEscape_ok_iff {s : Bytes} : (∃ t, jsonEscape s = .ok t) ↔ s.length < uint32Size := by
  rw [jsonEscape]
  split_ifs with hs
  · exact iff_of_true ⟨_, rfl⟩ hs
  · exact iff_of_false (by rintro ⟨t, h⟩; cases h) hs

/-- **What is printed**: a document whose strings are short. -/
theorem IsPrinter.ok_iff (h : IsPrinter closing print) {v : JSON Double}
    (hv : Throughout IsSimple v) :
    ∀ depth, (∃ t, print depth v = .ok t) ↔ Throughout ShortString v := by
  induction v using childrenInduction with
  | h v ih =>
  intro depth
  rw [throughout_iff] at hv ⊢
  cases v with
  | null => exact iff_of_true ⟨_, h.null depth⟩ ⟨trivial, by simp [children]⟩
  | boolean b => exact iff_of_true ⟨_, h.boolean depth b⟩ ⟨trivial, by simp [children]⟩
  | integral i => exact iff_of_true ⟨_, h.integral depth i⟩ ⟨trivial, by simp [children]⟩
  | hash b => exact iff_of_true ⟨_, h.hash depth b⟩ ⟨trivial, by simp [children]⟩
  | buffer b => exact iff_of_true ⟨_, h.buffer depth b⟩ ⟨trivial, by simp [children]⟩
  | string s =>
    rw [h.string, exists_bind_ok, jsonEscape_ok_iff]
    exact (and_iff_left (List.forall_mem_nil _)).symm
  | array list =>
    obtain ⟨a, sep, z, -, -, -, -, hprint⟩ := h.array depth list
    rw [hprint, exists_bind_ok, mapM_ok_iff]
    have hparts : ∀ u ∈ list, (∃ t, print (depth + 1) u = .ok t) ↔ Throughout ShortString u :=
      fun u hu => ih u hu (hv.2 u hu) (depth + 1)
    exact ⟨fun ht => ⟨trivial, fun u hu => (hparts u hu).1 (ht u hu)⟩,
      fun hs u hu => (hparts u hu).2 (hs.2 u hu)⟩
  | object map =>
    obtain ⟨a, colon, sep, z, -, -, -, -, -, hprint⟩ := h.object depth map
    rw [hprint, exists_bind_ok, mapM_ok_iff]
    simp only [exists_bind_ok]
    have hparts : ∀ kv ∈ map, (∃ t, print (depth + 1) kv.2 = .ok t) ↔ Throughout ShortString kv.2 :=
      fun kv hkv => ih kv.2 (List.mem_map_of_mem hkv) (hv.2 kv.2 (List.mem_map_of_mem hkv))
        (depth + 1)
    refine ⟨fun ht => ⟨trivial, ?_⟩, fun hs kv hkv => ?_⟩
    · exact List.forall_mem_map.2 fun kv hkv => (hparts kv hkv).1 (ht kv hkv)
    · exact (hparts kv hkv).2 (hs.2 kv.2 (List.mem_map_of_mem hkv))
  | _ => exact hv.1.elim

end IsPrinter

/-! ## The two printers -/

variable (doubles : Doubles Double) {tab : Bytes} (inType : Bool)

theorem blank_padding (h : Blank tab) (depth : ℕ) : Blank (padding tab depth) := by
  intro c hc
  obtain ⟨t, ht, hc⟩ := List.mem_flatten.1 hc
  exact h c (List.eq_of_mem_replicate ht ▸ hc)

/-- The padding of each entry may be taken for a part of what separates them. -/
theorem intercalate_map_append (pad sep : Bytes) (e : Bytes) (es : List Bytes) :
    sep.intercalate ((e :: es).map (pad ++ ·)) = pad ++ (sep ++ pad).intercalate (e :: es) := by
  rw [List.map_cons, intercalate_cons, intercalate_cons, List.flatMap_map, List.append_assoc]
  congr 3
  funext t
  rw [List.append_assoc]

/-- A key and what follows it, as they are written. -/
theorem member_eq (key colon text : Bytes) :
    ascii "\"" ++ key ++ (34 :: colon) ++ text = member key colon text := by
  rw [List.append_assoc, List.append_assoc]
  rfl

theorem dumpElements_eq (depth : ℕ) (list : List (JSON Double)) :
    dumpElements doubles tab inType depth list = list.mapM (dump doubles tab inType depth) := by
  induction list with
  | nil => rfl
  | cons v list ih =>
    rw [dumpElements, List.mapM_cons, ih]
    rfl

theorem dumpEntries_eq (depth : ℕ) (map : List (Bytes × JSON Double)) :
    dumpEntries doubles tab inType some depth map = map.mapM fun kv =>
      dump doubles tab inType depth kv.2 >>= fun text => .ok (member kv.1 (ascii " : ") text) := by
  induction map with
  | nil => rfl
  | cons kv map ih =>
    rw [dumpEntries, List.mapM_cons, ih]
    rcases dump doubles tab inType depth kv.2 with fault | text
    · rfl
    · simp only [← member_eq]
      rfl

theorem vectorElements_eq (list : List (JSON Double)) :
    vectorElements doubles inType list = list.mapM (dumpVector doubles inType) := by
  induction list with
  | nil => rfl
  | cons v list ih =>
    rw [vectorElements, List.mapM_cons, ih]
    rfl

theorem vectorEntries_eq (map : List (Bytes × JSON Double)) :
    vectorEntries doubles inType some map = map.mapM fun kv =>
      dumpVector doubles inType kv.2 >>= fun text => .ok (member kv.1 [58] text) := by
  induction map with
  | nil => rfl
  | cons kv map ih =>
    rw [vectorEntries, List.mapM_cons, ih]
    rcases dumpVector doubles inType kv.2 with fault | text
    · rfl
    · simp only [← member_eq]
      rfl

theorem between_eq (open_ close : UInt8) (a sep z : Bytes) (parts : List Bytes) :
    open_ :: a ++ sep.intercalate parts ++ (z ++ [close]) = between open_ close a sep z parts := by
  rw [between, List.cons_append, List.cons_append, List.append_assoc _ z]

theorem block_eq (pad kind e : Bytes) (es : List Bytes) : block pad kind (e :: es) =
    between 123 125 (kind ++ 10 :: pad) (ascii ",\n" ++ pad) (10 :: pad.drop 2) (e :: es) := by
  have hopen : ascii "\x7b" ++ kind ++ ascii "\n" ++ pad = 123 :: (kind ++ 10 :: pad) := by
    rw [List.append_assoc, List.append_assoc]
    rfl
  rw [block, braces, if_neg (by simp), intercalate_map_append, ← List.append_assoc _ pad, hopen,
    ← between_eq]
  rfl

theorem isPrinter_dump (h : Blank tab) :
    IsPrinter (fun depth => ((padding tab depth).drop 2).length + 1)
      (dump doubles tab inType) where
  null _ := rfl
  boolean _ _ := rfl
  integral _ _ := rfl
  string _ _ := rfl
  hash _ _ := rfl
  buffer _ _ := rfl
  array depth list := by
    have hpad := blank_padding h depth
    refine ⟨10 :: padding tab depth, ascii ", \n" ++ padding tab depth,
      10 :: (padding tab depth).drop 2,
      hpad.newline, ⟨[], ascii " \n" ++ padding tab depth, blank_nil, ?_, rfl⟩,
      (hpad.drop 2).newline, rfl, ?_⟩
    · exact Blank.append (forall_mem_of_all (by decide)) hpad
    · rw [dump, dumpElements_eq]
      rcases list.mapM (dump doubles tab inType (depth + 1)) with fault | texts
      · rfl
      · exact congrArg Except.ok (between_eq ..)
  object depth map := by
    have hpad := blank_padding h depth
    have hcolon : Spaced 58 (ascii " : ") :=
      ⟨[32], [32], forall_mem_of_all (by decide), forall_mem_of_all (by decide), rfl⟩
    cases map with
    | nil => exact ⟨[], _, [44], [], blank_nil, hcolon, ⟨[], [], blank_nil, blank_nil, rfl⟩,
        blank_nil, ⟨rfl, rfl⟩, rfl⟩
    | cons kv map =>
      refine ⟨10 :: padding tab depth, _, ascii ",\n" ++ padding tab depth,
        10 :: (padding tab depth).drop 2, hpad.newline, hcolon,
        ⟨[], ascii "\n" ++ padding tab depth, blank_nil, hpad.newline, rfl⟩, (hpad.drop 2).newline,
        rfl, ?_⟩
      rw [dump, dumpEntries_eq, List.mapM_cons]
      rcases dump doubles tab inType (depth + 1) kv.2 with fault | text
      · rfl
      generalize (List.mapM _ map : Except Fault (List Bytes)) = r
      rcases r with fault | texts
      · rfl
      · exact congrArg Except.ok (block_eq ..)

theorem isPrinter_dumpVector :
    IsPrinter (fun _ => 0) fun _ => dumpVector doubles inType where
  null _ := rfl
  boolean _ _ := rfl
  integral _ _ := rfl
  string _ _ := rfl
  hash _ _ := rfl
  buffer _ _ := rfl
  array depth list := by
    refine ⟨[], [44], [], blank_nil, ⟨[], [], blank_nil, blank_nil, rfl⟩, blank_nil, rfl, ?_⟩
    rw [dumpVector, vectorElements_eq]
    refine congrArg _ (funext fun texts => congrArg Except.ok ?_)
    exact between_eq 91 93 [] [44] [] texts
  object depth map := by
    refine ⟨[], [58], [44], [], blank_nil, ⟨[], [], blank_nil, blank_nil, rfl⟩,
      ⟨[], [], blank_nil, blank_nil, rfl⟩, blank_nil, ?_, ?_⟩
    · split
      · exact ⟨rfl, rfl⟩
      · rfl
    rw [dumpVector, vectorEntries_eq]
    refine congrArg _ (funext fun texts => congrArg Except.ok ?_)
    exact between_eq 123 125 [] [44] [] texts

end Dcap.JSON
