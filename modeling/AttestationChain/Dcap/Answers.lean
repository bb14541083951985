import AttestationChain.Dcap.EntryNetwork

/-!
# Dcap/Answers — what stands on the wire

`def_ret` dumps what the handler left and takes every backslash and every newline out.  There are
two kinds of answers: a refusal, whose body is one of five texts (`refusals`), and an identity.
-/

namespace Dcap

open JSON

/-- What `def_ret` leaves of a dumped text. -/
def wire (s : Bytes) : Bytes := removeChar (removeChar s 92) 10

@[simp] theorem wire_append (s t : Bytes) : wire (s ++ t) = wire s ++ wire t := by simp [wire]

theorem wire_plain {s : Bytes} (h : ∀ c ∈ s, PlainByte c) : wire s = s := by
  have hescape : (92 : UInt8) ∉ s := fun hs => (h _ hs).2.2.2 rfl
  have hnewline : (10 : UInt8) ∉ s := fun hs => absurd (h _ hs).1 (by decide)
  rw [wire, removeChar_eq_self hescape, removeChar_eq_self hnewline]

/-! ## Refusals -/

/-- A refusal, as it stands on the wire. -/
def refusal (message : String) (code : ℤ) : Bytes :=
  ascii "\x7b  \"message\" : \"" ++ wire (escaped (ascii message)) ++
    ascii "\",  \"status_code\" : " ++ wire (toDecimal code) ++ ascii "\x7d"

/-- What stands on the wire where the handler threw. -/
def unwound : Bytes := ascii "\x7b  \"status_code\" : null\x7d"

/-- The refusals. -/
def refusals : List Bytes :=
  [unwound, refusal "Load ecdsa_identity failed!" 400, refusal "Unexpected error" 400,
    refusal "Verify identity signature failed!" 500, refusal "Verify quote failed!" 500]

example : refusal "Unexpected error" 400 =
    ascii "\x7b  \"message\" : \"Unexpected error\",  \"status_code\" : 400\x7d" := by decide

variable {Double BigNum Key : Type} (lib : Libraries Double BigNum Key)

/-- **Giving up**: whatever identity was read, the answer is the refusal. -/
theorem defRet_refuse (id : JSON Double) {message : String} {code : ℤ} (hcode : code ≠ 200)
    (hlen : (ascii message).length < uint32Size) :
    (Frame.refuse ⟨.null, id⟩ message code >>= defRet lib) = .ok ⟨code, refusal message code⟩ := by
  change defRet lib ⟨.object [(ascii "message", .string (ascii message)),
    (ascii "status_code", .integral code)], id⟩ = _
  have hindex : (JSON.object [(ascii "message", .string (ascii message)),
      (ascii "status_code", .integral code)] : JSON Double).index (ascii "status_code")
        = .ok (.integral code, .object [(ascii "message", .string (ascii message)),
          (ascii "status_code", .integral code)]) := rfl
  rw [defRet, hindex]
  simp only [bind, Except.bind, toInt, if_neg hcode, dump, dumpEntries, jsonEscape, if_pos hlen]
  refine congrArg (fun body => Except.ok (Response.mk code body)) ?_
  change wire _ = _
  rw [block_cons]
  simp only [List.flatMap_cons, List.flatMap_nil, wire_append, List.append_assoc, refusal]
  rfl

/-! ## Identities -/

/-- The account, as it stands on the wire. -/
def wireAccount (account : Bytes) : Bytes := wire (escaped account)

/-- What stands behind the account, from its closing quote on. -/
def identityTail (i : Identity) : Bytes :=
  ascii "\",    \"mrenclave\" : \"" ++ hexstring i.mrEnclave ++ ascii "\",    \"pubkey\" : \"" ++
    hexstring i.reportData ++ ascii "\"  \x7d,  \"status_code\" : 200\x7d"

/-- An identity, as it stands on the wire. -/
def identityBody (i : Identity) : Bytes :=
  ascii "\x7b  \"message\" : \x7b    \"account\" : \"" ++ (wireAccount i.account ++ identityTail i)

/-- The document of an identity. -/
def identityJson (i : Identity) : JSON Double :=
  .object [(ascii "account", .string i.account),
    (ascii "mrenclave", .string (hexstring i.mrEnclave)),
    (ascii "pubkey", .string (hexstring i.reportData))]

/-- The dump of an identity, one level down. -/
theorem dump_identityJson (doubles : Doubles Double) {i : Identity}
    (hlen : i.account.length < uint32Size) :
    dump doubles (ascii "  ") false 2 (identityJson i) = .ok (block (padding (ascii "  ") 2) [] [
      ascii "\"account\" : \"" ++ escaped i.account ++ ascii "\"",
      ascii "\"mrenclave\" : \"" ++ hexstring i.mrEnclave ++ ascii "\"",
      ascii "\"pubkey\" : \"" ++ hexstring i.reportData ++ ascii "\""]) := by
  have hhex : ∀ {b : Bytes}, b.length ≤ 64 → (hexstring b).length < uint32Size := by
    intro b hb
    rw [length_hexstring, uint32Size]
    omega
  simp only [identityJson, dump, dumpEntries, jsonEscape, bind, Except.bind, if_pos hlen,
    if_pos (hhex (i.length_mrEnclave.le.trans (by decide))), if_pos (hhex i.length_reportData.le),
    escaped_plain (plain_hexstring _)]
  rfl

/-- **Answering with an identity.** -/
theorem defRet_identity {i : Identity} (hlen : i.account.length < uint32Size) :
    (Frame.setStatusCode ⟨.null, identityJson i⟩ 200 >>= defRet lib) =
      .ok ⟨200, identityBody i⟩ := by
  have hbody : dump lib.doubles (ascii "  ") false 1 (.object
      [(ascii "message", identityJson i), (ascii "status_code", .integral 200)]) =
        .ok (block (padding (ascii "  ") 1) [] [
          ascii "\"message\" : " ++ block (padding (ascii "  ") 2) [] [
            ascii "\"account\" : \"" ++ escaped i.account ++ ascii "\"",
            ascii "\"mrenclave\" : \"" ++ hexstring i.mrEnclave ++ ascii "\"",
            ascii "\"pubkey\" : \"" ++ hexstring i.reportData ++ ascii "\""],
          ascii "\"status_code\" : 200"]) := by
    rw [dump, dumpEntries]
    simp only [dump_identityJson lib.doubles hlen]
    rfl
  change (dump lib.doubles (ascii "  ") false 1 (.object
    [(ascii "message", identityJson i), (ascii "status_code", .integral 200)]) >>= fun body =>
      (.ok (Response.mk 200 (wire body)) : Except Fault Response)) = _
  rw [hbody]
  refine congrArg (fun body => Except.ok (Response.mk 200 body)) ?_
  simp only [block_cons, List.flatMap_cons, List.flatMap_nil, wire_append, List.append_assoc,
    wire_plain (plain_hexstring _), identityBody, identityTail, wireAccount]
  rfl

end Dcap
