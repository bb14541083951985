import AttestationChain.Dcap.Json.Value

/-!
# Dcap/Json/Dump — writing a document

`dump` writes a document over several lines, each member indented by its depth, and `dump_vector`
writes it without a blank.
-/

namespace Dcap

namespace JSON

/-- A double as it is dumped: without the zeros at its end, and without a dot there. -/
def trimDouble (s : Bytes) : Bytes :=
  match s.reverse.dropWhile (· = 48) with
  | [] => if s = [] then [48] else s
  | 46 :: t => if t = [] then [48] else t.reverse
  | t => t.reverse

/-- What an ordered object shows of a numbered key, if it shows it. -/
def shownKey (key : Bytes) : Option Bytes :=
  let tag := key.takeWhile (· ≠ fioSeparater)
  if tag.length + 1 < key.length ∧ isNumber tag then some (key.drop (tag.length + 1)) else none

/-- `pad`: two characters more for each level. -/
def padding (tab : Bytes) (depth : ℕ) : Bytes := (List.replicate depth tab).flatten

/-- A text of entries, or that of none. -/
def braces (open_ sep close : Bytes) (entries : List Bytes) : Bytes :=
  if entries = [] then ascii "\x7b\x7d" else open_ ++ sep.intercalate entries ++ close

/-- Entries over several lines, each behind its padding. -/
def block (pad : Bytes) (kind : Bytes) (entries : List Bytes) : Bytes :=
  braces (ascii "\x7b" ++ kind ++ ascii "\n") (ascii ",\n")
    (ascii "\n" ++ pad.drop 2 ++ ascii "\x7d")
    (entries.map (pad ++ ·))

theorem intercalate_cons (sep e : Bytes) (es : List Bytes) :
    sep.intercalate (e :: es) = e ++ es.flatMap (sep ++ ·) := by
  induction es generalizing e with
  | nil => simp
  | cons e' es ih =>
    rw [List.intercalate_cons_cons, ih e', List.flatMap_cons, List.append_assoc, List.append_assoc]

theorem intercalate_map_cons_cons {α : Type} (sep : Bytes) (f : α → Bytes) (a b : α) (l : List α) :
    sep.intercalate ((a :: b :: l).map f) = f a ++ sep ++ sep.intercalate ((b :: l).map f) :=
  List.intercalate_cons_cons

/-- A block of entries, piece by piece. -/
theorem block_cons (pad kind e : Bytes) (es : List Bytes) : block pad kind (e :: es) =
    ascii "\x7b" ++ kind ++ ascii "\n" ++
    (pad ++ e ++ es.flatMap (fun e => ascii ",\n" ++ (pad ++ e))) ++
      (ascii "\n" ++ pad.drop 2 ++ ascii "\x7d") := by
  rw [block, braces, List.map_cons, if_neg (List.cons_ne_nil _ _), intercalate_cons,
    List.flatMap_map]

section Dump

variable {Double : Type} (doubles : Doubles Double) (tab : Bytes) (inType : Bool)

mutual

def dump (depth : ℕ) : JSON Double → Except Fault Bytes
  | .null => .ok (ascii "null")
  | .object map => do
    let entries ← dumpEntries some (depth + 1) map
    .ok (block (padding tab depth) [] entries)
  | .fioObject _ vals => do
    let entries ← dumpEntries shownKey (depth + 1) vals
    .ok (block (padding tab depth) (if inType then ascii "fio" else []) entries)
  | .flatObject _ vals => do
    let entries ← dumpEntries shownKey depth vals
    .ok (braces (ascii "\x7b" ++ (if inType then ascii "flat" else []) ++ ascii " ") (ascii ", ")
      (ascii " \x7d") entries)
  | .pair _ _ => .ok []
  | .array list => do
    let elements ← dumpElements (depth + 1) list
    let pad := padding tab depth
    .ok (ascii "[\n" ++ pad ++ (ascii ", \n" ++ pad).intercalate elements ++
      (ascii "\n" ++ pad.drop 2 ++ ascii "]"))
  | .hash hashList => .ok (ascii "\"$&JT&$" ++ hexstring hashList ++ ascii "\"")
  | .buffer bufferList => .ok (ascii "\"$&BT&$" ++ hexstring bufferList ++ ascii "\"")
  | .string s => do
    let s ← jsonEscape s
    .ok (ascii "\"" ++ s ++ ascii "\"")
  | .floating d => .ok (trimDouble (doubles.toString d))
  | .integral i => .ok (toDecimal i)
  | .boolean b => .ok (if b then ascii "true" else ascii "false")

/-- The members of an object, each under the key it shows. -/
def dumpEntries (shown : Bytes → Option Bytes) (depth : ℕ) :
    List (Bytes × JSON Double) → Except Fault (List Bytes)
  | [] => .ok []
  | (key, v) :: map =>
    match shown key with
    | none => dumpEntries shown depth map
    | some key => do
      let text ← dump depth v
      let entries ← dumpEntries shown depth map
      .ok ((ascii "\"" ++ key ++ ascii "\" : " ++ text) :: entries)

def dumpElements (depth : ℕ) : List (JSON Double) → Except Fault (List Bytes)
  | [] => .ok []
  | v :: list => do
    let text ← dump depth v
    let elements ← dumpElements depth list
    .ok (text :: elements)

end

mutual

def dumpVector : JSON Double → Except Fault Bytes
  | .null => .ok (ascii "null")
  | .object map => do
    let entries ← vectorEntries some map
    .ok (ascii "\x7b" ++ (ascii ",").intercalate entries ++ ascii "\x7d")
  | .fioObject _ vals => do
    let entries ← vectorEntries shownKey vals
    .ok (ascii "\x7b" ++ (if inType then ascii "fio" else []) ++ (ascii ",").intercalate entries ++
      ascii "\x7d")
  | .flatObject _ vals => do
    let entries ← vectorEntries shownKey vals
    .ok (ascii "\x7b" ++ (if inType then ascii "flat" else []) ++ (ascii ",").intercalate entries ++
      ascii "\x7d")
  | .pair _ _ => .ok []
  | .array list => do
    let elements ← vectorElements list
    .ok (ascii "[" ++ (ascii ",").intercalate elements ++ ascii "]")
  | .hash hashList => .ok (ascii "\"$&JT&$" ++ hexstring hashList ++ ascii "\"")
  | .buffer bufferList => .ok (ascii "\"$&BT&$" ++ hexstring bufferList ++ ascii "\"")
  | .string s => do
    let s ← jsonEscape s
    .ok (ascii "\"" ++ s ++ ascii "\"")
  | .floating d => .ok (trimDouble (doubles.toString d))
  | .integral i => .ok (toDecimal i)
  | .boolean b => .ok (if b then ascii "true" else ascii "false")

/-- The members of an object, each under the key it shows. -/
def vectorEntries (shown : Bytes → Option Bytes) :
    List (Bytes × JSON Double) → Except Fault (List Bytes)
  | [] => .ok []
  | (key, v) :: map =>
    match shown key with
    | none => vectorEntries shown map
    | some key => do
      let text ← dumpVector v
      let entries ← vectorEntries shown map
      .ok ((ascii "\"" ++ key ++ ascii "\":" ++ text) :: entries)

def vectorElements : List (JSON Double) → Except Fault (List Bytes)
  | [] => .ok []
  | v :: list => do
    let text ← dumpVector v
    let elements ← vectorElements list
    .ok (text :: elements)

end

end Dump

end JSON

end Dcap
