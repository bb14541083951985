import AttestationChain.Machinery.Bytes
import AttestationChain.Machinery.JsonText

/-!
# Verifier/Response — reading the answer of the service

`parse_result` takes a JSON text apart: the first member named `message`, and in it the first
members named `pubkey`, `mrenclave` and `account`, each cast character by character to bytes.
`parseResult_eq_some` is its specification over a document.

`answerText` is the document the service writes: an identity whose three texts need no escape reads
back as it is (`text_answerText`).
-/

namespace Verifier

open JsonText

/-! ## `parse_result` -/

/-- `obj.into_iter().find(|(k, _)| k.iter().copied().eq(key.chars()))`: the first member of that
name. -/
def findMember (obj : List (List Char × Value)) (key : List Char) : Option Value :=
  (obj.find? fun kv => kv.1 = key).map Prod.snd

/-- `s.iter().map(|c| *c as u8)`: every character cast to its low byte. -/
def charBytes (s : List Char) : Bytes := s.map fun c => c.toNat.toUInt8

def parseObject (bodyValue : Value) (keys : List Char) : Option Bytes :=
  match bodyValue with
  | .object obj =>
    match findMember obj keys with
    | some (.string s) => some (charBytes s)
    | _ => none
  | _ => none

/-- `parse_result`, over the parser of `lite_json`. -/
def parseResult (parseJson : List Char → Option Value) (resultStr : List Char) :
    Option (List Bytes) := do
  match ← parseJson resultStr with
  | .object obj =>
    let v ← findMember obj "message".toList
    match v with
    | .object _ =>
      let pubkeyOption := parseObject v "pubkey".toList
      let mrenclaveOption := parseObject v "mrenclave".toList
      let accountOption := parseObject v "account".toList
      match pubkeyOption, mrenclaveOption, accountOption with
      | some pubkey, some mrenclave, some account => some [pubkey, mrenclave, account]
      | _, _, _ => none
    | _ => none
  | _ => none

/-- **What `parse_result` reads**: three texts, each the first of its name in the first message. -/
theorem parseResult_eq_some {parseJson : List Char → Option Value} {s : List Char}
    {m : List Bytes} : parseResult parseJson s = some m ↔
      ∃ obj v pubkey mrenclave account, parseJson s = some (.object obj) ∧
        findMember obj "message".toList = some v ∧
        parseObject v "pubkey".toList = some pubkey ∧
        parseObject v "mrenclave".toList = some mrenclave ∧
        parseObject v "account".toList = some account ∧ m = [pubkey, mrenclave, account] := by
  constructor
  · intro h
    obtain ⟨w, hparse, h⟩ := Option.bind_eq_some_iff.1 h
    split at h
    · rename_i obj
      obtain ⟨v, hfind, h⟩ := Option.bind_eq_some_iff.1 h
      split at h
      · dsimp only at h
        split at h
        · rename_i hp hm ha
          exact ⟨obj, _, _, _, _, hparse, hfind, hp, hm, ha, (Option.some.inj h).symm⟩
        · cases h
      · cases h
    · cases h
  · rintro ⟨obj, v, pubkey, mrenclave, account, hparse, hfind, hp, hm, ha, rfl⟩
    -- Only an object has members.
    obtain ⟨ms, rfl⟩ : ∃ ms, v = .object ms := by
      cases v with
      | object ms => exact ⟨ms, rfl⟩
      | _ => cases hp
    simp only [parseResult, hparse, Option.bind_eq_bind, Option.bind_some, hfind, hp, hm, ha]

/-! ## What the service writes -/

/-- A character a JSON string carries as it is. -/
def Plain (c : Char) : Prop := ' ' ≤ c ∧ c ≠ '"' ∧ c ≠ '\\'

instance (c : Char) : Decidable (Plain c) := inferInstanceAs (Decidable (_ ∧ _))

/-- A text of such characters. -/
def PlainText (s : List Char) : Prop := ∀ c ∈ s, Plain c

instance (s : List Char) : Decidable (PlainText s) := List.decidableBAll Plain s

/-- **A plain text is read as it is**, up to the quote that ends it. -/
theorem chars_plain (v r : List Char) (h : PlainText v) : Chars (v ++ '"' :: r) v r := by
  induction v with
  | nil => exact .close
  | cons c v ih =>
    obtain ⟨hc, hquote, hescape⟩ := h c (by simp)
    exact .plain hc hquote hescape (ih fun d hd => h d (List.mem_cons_of_mem _ hd))

/-- A member whose name and value are plain texts, with another one behind it… -/
theorem members_string_cons (k v y : List Char) {s r : List Char} {ms : List (List Char × Value)}
    (hk : PlainText k) (hv : PlainText v)
    (hs : skipWs s = '"' :: (k ++ '"' :: " : \"".toList ++ (v ++ '"' :: ',' :: y)))
    (h : Members y ms r) : Members s ((k, .string v) :: ms) r := by
  rw [List.append_assoc] at hs
  exact .cons hs (chars_plain _ _ hk) rfl (.string (chars_plain _ _ hv)) rfl h

/-- …and one that ends its object. -/
theorem members_string_last (k v y : List Char) {s r : List Char} (hk : PlainText k)
    (hv : PlainText v)
    (hs : skipWs s = '"' :: (k ++ '"' :: " : \"".toList ++ (v ++ '"' :: y)))
    (hend : skipWs y = '}' :: r) : Members s [(k, .string v)] r := by
  rw [List.append_assoc] at hs
  exact .last hs (chars_plain _ _ hk) rfl (.string (chars_plain _ _ hv)) hend

/-- What stands before the account in an answer. -/
def answerHead : List Char := "\x7b  \"message\" : \x7b    \"account\" : \"".toList

/-- What stands behind the message of an answer. -/
def statusTail : List Char := ",  \"status_code\" : 200\x7d".toList

/-- The last member of the message, and what stands behind it. -/
def pubkeyTail (pubkey : List Char) : List Char :=
  "    \"pubkey\" : \"".toList ++ (pubkey ++ '"' :: ("  \x7d".toList ++ statusTail))

/-- The last two members, likewise. -/
def mrenclaveTail (mrenclave pubkey : List Char) : List Char :=
  "    \"mrenclave\" : \"".toList ++ (mrenclave ++ '"' :: ',' :: pubkeyTail pubkey)

/-- What stands behind the account, from its closing quote on. -/
def answerTail (mrenclave pubkey : List Char) : List Char :=
  '"' :: ',' :: mrenclaveTail mrenclave pubkey

/-- An answer, as it stands on the wire. -/
def answerText (account mrenclave pubkey : List Char) : List Char :=
  answerHead ++ (account ++ answerTail mrenclave pubkey)

/-- The document of an answer. -/
def answerValue (account mrenclave pubkey : List Char) : Value :=
  .object [("message".toList, .object [("account".toList, .string account),
    ("mrenclave".toList, .string mrenclave), ("pubkey".toList, .string pubkey)]),
    ("status_code".toList, .number "200".toList)]

/-- The members behind the account. -/
theorem members_mrenclaveTail {mrenclave pubkey : List Char} (hm : PlainText mrenclave)
    (hp : PlainText pubkey) : Members (mrenclaveTail mrenclave pubkey)
      [("mrenclave".toList, .string mrenclave), ("pubkey".toList, .string pubkey)] statusTail := by
  have hpubkey : Members (pubkeyTail pubkey) [("pubkey".toList, .string pubkey)] statusTail :=
    members_string_last "pubkey".toList pubkey ("  \x7d".toList ++ statusTail)
      (by decide) hp rfl rfl
  exact members_string_cons "mrenclave".toList mrenclave (pubkeyTail pubkey) (by decide) hm rfl
    hpubkey

/-- **What stands in the message is what is read there**, the account first. -/
theorem text_of_message (s : List Char) {ms : List (List Char × Value)}
    (h : Members ("    \"account\" : \"".toList ++ s) ms statusTail) :
    Text (answerHead ++ s) (.object [("message".toList, .object ms),
      ("status_code".toList, .number "200".toList)]) := by
  have hstatus : Members "  \"status_code\" : 200\x7d".toList
      [("status_code".toList, .number "200".toList)] [] :=
    .last rfl (chars_plain "status_code".toList " : 200\x7d".toList (by decide)) rfl
      (.number rfl) rfl
  exact ⟨[], .object (.cons rfl (chars_plain "message".toList
    (" : \x7b    \"account\" : \"".toList ++ s) (by decide)) rfl (.object h) rfl hstatus), rfl⟩

/-- **An answer of plain texts is the document it looks like.** -/
theorem text_answerText {account mrenclave pubkey : List Char} (ha : PlainText account)
    (hm : PlainText mrenclave) (hp : PlainText pubkey) :
    Text (answerText account mrenclave pubkey) (answerValue account mrenclave pubkey) :=
  text_of_message _ (members_string_cons "account".toList account (mrenclaveTail mrenclave pubkey)
    (by decide) ha rfl (members_mrenclaveTail hm hp))

/-- **An answer of plain texts is read back**, by any parser of standard JSON. -/
theorem parseResult_answerText {parseJson : List Char → Option Value}
    (hparse : ∀ s v, parseJson s = some v ↔ Text s v) {account mrenclave pubkey : List Char}
    (ha : PlainText account) (hm : PlainText mrenclave) (hp : PlainText pubkey) :
    parseResult parseJson (answerText account mrenclave pubkey)
      = some [charBytes pubkey, charBytes mrenclave, charBytes account] :=
  parseResult_eq_some.2 ⟨_, _, _, _, _, (hparse _ _).2 (text_answerText ha hm hp), rfl, rfl, rfl,
    rfl, rfl⟩

end Verifier
