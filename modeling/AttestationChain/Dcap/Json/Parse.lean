import AttestationChain.Dcap.Json.Value

/-!
# Dcap/Json/Parse — reading a document

`JSON::Load` reads a document off the front of a string.  The parser stands at an offset into the
string, and what it can see is the memory from there on, the NUL behind the string included; looking
past that is a memory fault.  An error sets the status and mostly goes on: whoever called the parser
has to look at the status.

The source has the parser twice, word for word but for how it looks for `true`, `false` and `null`
(`Overload.finds`).  It recurses under a bound, which it never meets (`Dcap/Json/Termination`).
-/

namespace Dcap

/-- `crust_status_t`, as far as the parser sets it. -/
inductive CrustStatus
  | success
  | jsonArrayError
  | jsonObjectError
  | jsonStringError
  | jsonBoolError
  | jsonNullError
  | jsonNumberError
  | jsonStartingError
  deriving DecidableEq

namespace JSON

/-- What a parser comes to: a value, the status, and the memory it leaves. -/
abbrev Parsed (Double : Type) := JSON Double × CrustStatus × Bytes

/-! ## Blanks -/

/-- `isspace`. -/
def isSpace (c : UInt8) : Bool := c = 32 || (9 ≤ c && c ≤ 13)

/-- `consume_ws`. -/
def consumeWs : Bytes → Except Fault Bytes
  | [] => .error .outOfBounds
  | c :: mem => if isSpace c then consumeWs mem else .ok (c :: mem)

/-! ## Strings -/

def isHexDigit (c : UInt8) : Bool :=
  (48 ≤ c && c ≤ 57) || (97 ≤ c && c ≤ 102) || (65 ≤ c && c ≤ 70)

/-- What an escape adds to the string: of an unknown one, its backslash alone. -/
def unescape (e : UInt8) : UInt8 :=
  if e = 34 then 34
  else if e = 47 then 47
  else if e = 98 then 8
  else if e = 102 then 12
  else if e = 110 then 10
  else if e = 114 then 13
  else if e = 116 then 9
  else 92

/-- More characters in front of what the rest of a string comes to. -/
def prepend (s : Bytes) : Except Fault (Option Bytes × Bytes) → Except Fault (Option Bytes × Bytes)
  | .ok (val, mem) => .ok (val.map (s ++ ·), mem)
  | .error fault => .error fault

/-- The loop of `parse_string`: the string up to its closing quote, and the memory behind that.
There is no string where a `\u` is not followed by four hexadecimal digits; one that is stays as it
is spelled. -/
def scanString : Bytes → Except Fault (Option Bytes × Bytes)
  | [] => .error .outOfBounds
  | [c] => if c = 34 then .ok (some [], []) else .error .outOfBounds
  | c :: e :: mem =>
    if c = 34 then .ok (some [], e :: mem)
    else if c ≠ 92 then prepend [c] (scanString (e :: mem))
    else if e ≠ 117 then prepend [unescape e] (scanString mem)
    else
      match mem with
      | h₁ :: h₂ :: h₃ :: h₄ :: mem =>
        if [h₁, h₂, h₃, h₄].all isHexDigit then
          prepend [92, 117, h₁, h₂, h₃, h₄] (scanString mem)
        else .ok (none, e :: h₁ :: h₂ :: h₃ :: h₄ :: mem)
      | mem => if mem.all isHexDigit then .error .outOfBounds else .ok (none, e :: mem)

/-- `HASH_TAG` and `BUFF_TAG`. -/
def hashTag : Bytes := ascii "$&JT&$"

def buffTag : Bytes := ascii "$&BT&$"

variable {Double : Type}

/-- What a string stands for: a tagged one is a hash or a buffer.  A hash is read off 32 bytes,
whatever it was spelled with; an odd one is a string, and an odd buffer has a NULL for its bytes.
The tag is looked for in a string of its own, which holds more bytes than a tag has. -/
def stringValue (val : Bytes) : Except Fault (JSON Double) :=
  if hashTag <+: val then
    match hexstringToBytes (val.drop hashTag.length) with
    | some block => if block.length < 32 then .error .outOfBounds else .ok (.hash (block.take 32))
    | none => .ok (.string val)
  else if buffTag <+: val then
    match hexstringToBytes (val.drop buffTag.length) with
    | some block => .ok (.buffer block)
    | none => if val.length = buffTag.length + 1 then .ok (.buffer []) else .error .outOfBounds
  else .ok (.string val)

/-- `parse_string`, behind the opening quote. -/
def parseString (status : CrustStatus) (mem : Bytes) : Except Fault (Parsed Double) := do
  let (val, mem) ← scanString mem
  match val with
  | none => .ok (.string [], .jsonStringError, mem)
  | some val => do
    let ans ← stringValue val
    .ok (ans, status, mem)

/-! ## Numbers -/

/-- `std::stol`, of a text of digits, minus signs and dots. -/
def stol (s : Bytes) : Except Fault ℤ :=
  let digits := (s.drop (if s.head? = some 45 then 1 else 0)).takeWhile isDigit
  let n : ℕ := digits.foldl (fun n c => n * 10 + (c.toNat - 48)) 0
  let i : ℤ := if s.head? = some 45 then -n else n
  if digits = [] ∨ i < -2 ^ 63 ∨ 2 ^ 63 ≤ i then .error .exception else .ok i

/-- The characters a loop takes, the one that ends it, and the memory behind that. -/
def scanWhile (p : UInt8 → Bool) : Bytes → Except Fault (Bytes × UInt8 × Bytes)
  | [] => .error .outOfBounds
  | c :: mem =>
    if p c then do
      let (val, d, rest) ← scanWhile p mem
      .ok (c :: val, d, rest)
    else .ok ([], c, mem)

/-- A character that may follow a number. -/
def endsNumber (c : UInt8) : Bool := isSpace c || c = 44 || c = 93 || c = 125

/-- The memory an exponent starts at, and its sign.  The character behind the `e` is dropped, and
behind a minus one more. -/
def exponentSign : Bytes → Except Fault (Bytes × Bytes)
  | [] => .error .outOfBounds
  | c :: mem => .ok (if c = 45 then ([45], mem.drop 1) else ([], mem))

/-- `parse_number`. -/
def parseNumber (doubles : Doubles Double) (status : CrustStatus) (mem : Bytes) :
    Except Fault (Parsed Double) := do
  let (val, c, mem) ← scanWhile (fun c => c = 45 || isDigit c || c = 46) mem
  if c = 69 ∨ c = 101 then
    let (sign, mem) ← exponentSign mem
    let (digits, d, mem) ← scanWhile isDigit mem
    if !endsNumber d then .ok (.null, .jsonNumberError, mem)
    else
      let exp ← stol (sign ++ digits)
      if 46 ∈ val then
        match doubles.stod val with
        | none => .error .exception
        | some x => .ok (.floating (doubles.mul x (doubles.pow10 exp)), status, d :: mem)
      else
        let i ← stol val
        .ok (.floating (doubles.mul (doubles.ofLong i) (doubles.pow10 exp)), status, d :: mem)
  else if !endsNumber c then .ok (.null, .jsonNumberError, mem)
  else if 46 ∈ val then
    match doubles.stod val with
    | none => .error .exception
    | some x => .ok (.floating (doubles.mul x (doubles.pow10 0)), status, c :: mem)
  else
    let i ← stol val
    .ok (.integral i, status, c :: mem)

/-! ## Literals -/

/-- Whether `memcmp` finds a word: it looks at as many characters as the word has. -/
def memcmp (mem word : Bytes) : Except Fault Bool :=
  if mem.length < word.length then .error .outOfBounds else .ok (word <+: mem)

/-- The overloads of the parser, for strings and for bytes. -/
inductive Overload
  | string
  | bytes
  deriving DecidableEq

/-- Whether a word stands at the offset: in a string by `substr`, which takes what there is. -/
def Overload.finds (mem word : Bytes) : Overload → Except Fault Bool
  | .string => .ok (word <+: mem)
  | .bytes => memcmp mem word

/-- `parse_bool`. -/
def parseBool (overload : Overload) (status : CrustStatus) (mem : Bytes) :
    Except Fault (Parsed Double) := do
  if ← overload.finds mem (ascii "true") then .ok (.boolean true, status, mem.drop 4)
  else if ← overload.finds mem (ascii "false") then .ok (.boolean false, status, mem.drop 5)
  else .ok (.null, .jsonBoolError, mem)

/-- `parse_null`. -/
def parseNull (overload : Overload) (status : CrustStatus) (mem : Bytes) :
    Except Fault (Parsed Double) := do
  if ← overload.finds mem (ascii "null") then .ok (.null, status, mem.drop 4)
  else .ok (.null, .jsonNullError, mem)

/-! ## Documents -/

/-- The empty object of the kind its brace is followed by, and the memory behind the kind. -/
def emptyObject (mem : Bytes) : Except Fault (JSON Double × Bytes) := do
  if ← memcmp mem (ascii "fio") then .ok (.fioObject [] [], mem.drop 3)
  else if ← memcmp mem (ascii "flat") then .ok (.flatObject [] [], mem.drop 4)
  else .ok (.object [], mem)

/-- `Array[index] = value` for the next index.  It is unsigned, and so is the length that
`operator[]` gives the array to hold it, which is none where the index is the last there is. -/
def setNext (list : List (JSON Double)) (value : JSON Double) :
    Except Fault (List (JSON Double)) :=
  if list.length + 1 < uint32Size then .ok (list ++ [value]) else .error .outOfBounds

section Parse

variable (doubles : Doubles Double) (overload : Overload)

mutual

def parseNext : ℕ → CrustStatus → Bytes → Except Fault (Parsed Double)
  | 0, _, _ => .error .outOfFuel
  | fuel + 1, status, mem => do
    match ← consumeWs mem with
    | [] => .error .outOfBounds
    | c :: mem =>
      if c = 91 then do
        -- `parse_array`.
        match ← consumeWs mem with
        | 93 :: mem => .ok (.array [], status, mem)
        | mem => parseElements fuel status [] mem
      else if c = 123 then do
        -- `parse_object`.
        let (obj, mem) ← emptyObject mem
        match ← consumeWs mem with
        | 125 :: mem => .ok (obj, status, mem)
        | mem => parseMembers fuel status obj mem
      else if c = 34 then parseString status mem
      else if c = 116 ∨ c = 102 then parseBool overload status (c :: mem)
      else if c = 110 then parseNull overload status (c :: mem)
      else if isDigit c ∨ c = 45 then parseNumber doubles status (c :: mem)
      else .ok (.null, .jsonStartingError, c :: mem)

/-- The loop of `parse_array`, which gives up what it has at an error. -/
def parseElements : ℕ → CrustStatus → List (JSON Double) → Bytes → Except Fault (Parsed Double)
  | 0, _, _, _ => .error .outOfFuel
  | fuel + 1, status, list, mem => do
    let (value, status, mem) ← parseNext fuel status mem
    let list ← setNext list value
    match ← consumeWs mem with
    | 44 :: mem => parseElements fuel status list mem
    | 93 :: mem => .ok (.array list, status, mem)
    | mem => .ok (.array [], .jsonArrayError, mem)

/-- The loop of `parse_object`, which keeps what it has at an error. -/
def parseMembers : ℕ → CrustStatus → JSON Double → Bytes → Except Fault (Parsed Double)
  | 0, _, _, _ => .error .outOfFuel
  | fuel + 1, status, obj, mem => do
    let (key, status, mem) ← parseNext fuel status mem
    match ← consumeWs mem with
    | 58 :: mem => do
      let mem ← consumeWs mem
      let (value, status, mem) ← parseNext fuel status mem
      let name ← key.toString
      let obj ← obj.set name value
      match ← consumeWs mem with
      | 44 :: mem => parseMembers fuel status obj mem
      | 125 :: mem => .ok (obj, status, mem)
      | mem => .ok (obj, .jsonObjectError, mem)
    | mem => .ok (obj, .jsonObjectError, mem)

end

end Parse

section Load

variable (doubles : Doubles Double)

/-- `JSON::Load`: the document a string starts with, and the status. -/
def load (str : Bytes) : Except Fault (JSON Double × CrustStatus) :=
  if str = [] then .ok (.null, .success)
  else do
    let (value, status, _) ← parseNext doubles .string (2 * str.length + 3) .success (str ++ [0])
    .ok (value, status)

/-- The overload of `JSON::Load` for bytes, with the memory they start: its parser is not told how
many bytes there are. -/
def loadBytes (mem : Bytes) (dataSize : ℕ) : Except Fault (JSON Double × CrustStatus) :=
  if dataSize = 0 then .ok (.null, .success)
  else do
    let (value, status, _) ← parseNext doubles .bytes (2 * mem.length + 1) .success mem
    .ok (value, status)

end Load

end JSON

end Dcap
