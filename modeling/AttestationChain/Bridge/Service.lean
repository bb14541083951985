import AttestationChain.Bridge.Reading
import AttestationChain.Verifier.Freshness
import AttestationChain.Verifier.Reports

/-!
# Bridge/Service — an attempt of the worker, over the service it asks

Both programs meet in one request: the worker posts an evidence, the service answers it, the worker
signs what it reads in the answer.  Where the host gets through to the service, the two halves are
one function from evidences to reports, and it is known from both sides: what is signed *vouches*
for the evidence (`vouches_of_signed`), and an evidence that is *attestable* is signed
(`signed_of_attestable`).
-/

namespace Bridge

open Dcap Dcap.JSON JsonText Runs Verifier

variable {AccountId Public Signature Double BigNum Key : Type}

/-! ## What a report vouches for -/

/-- **A payload names an identity**: the key in its report data, the measurement of its enclave, and
the account its text spells. -/
structure Names (env : Env AccountId) (i : Identity) (p : RegisterPayload Public AccountId) :
    Prop where
  pubkey : p.pubkey = hexstring i.reportData
  code : p.code = hexstring i.mrEnclave
  who : ∃ accountId, decodeHex i.account = .ok (.ok accountId) ∧
    env.decodeAccountId accountId = some p.who

/-- **A payload is read in an answer**: its key and its measurement are the texts `parse_result`
reads there, and the third one spells its account. -/
def ReadIn (env : Env AccountId) (body : Bytes) (p : RegisterPayload Public AccountId) : Prop :=
  ∃ t account accountId, fromUtf8 body = some t ∧
    parseResult env.parseJson t = some [p.pubkey, p.code, account] ∧
    decodeHex account = .ok (.ok accountId) ∧ env.decodeAccountId accountId = some p.who

/-- The service, as a host meets it that gets through to it. -/
def serviceHttp (lib : Libraries Double BigNum Key) (evidence : Bytes) : HttpOutcome :=
  match entryNetwork lib evidence with
  | .ok res => .response res.status.toNat res.body
  | .error _ => .failed .ioError

/-- **A payload vouches for an evidence**: the service found an identity in it that passed the
checks and answered 200 with it, the payload is read in that answer, and it names the identity —
unless the account in there is no plain text. -/
def Vouches (env : Env AccountId) (libs : Set (Libraries Double BigNum Key)) (evidence : Bytes)
    (p : RegisterPayload Public AccountId) : Prop :=
  ∃ lib ∈ libs, ∃ e i, Carries lib evidence e i ∧ Passes lib e i ∧
    serviceHttp lib evidence = .response 200 (identityBody i) ∧ ReadIn env (identityBody i) p ∧
    ((∀ c ∈ i.account, PlainByte c) → Names env i p)

/-- **The service answers a host**: what the host gets back for an evidence comes from the service,
over some of the libraries. -/
def AnswersFrom (libs : Set (Libraries Double BigNum Key))
    (host : Host AccountId Public Signature) : Prop :=
  ∀ evidence code body, host.http evidence = .response code body →
    ∃ lib ∈ libs, serviceHttp lib evidence = .response code body

/-- **An answer of status 200 is an identity** that passed the checks. -/
theorem passes_of_answered {lib : Libraries Double BigNum Key} {evidence body : Bytes}
    (h : serviceHttp lib evidence = .response 200 body) :
    ∃ e i, Carries lib evidence e i ∧ Passes lib e i ∧ body = identityBody i := by
  rw [serviceHttp] at h
  obtain ⟨fault, hres⟩ | ⟨code, r, hcode, -, hres⟩ | ⟨e, i, hcarries, hpasses, hres⟩ :=
    entryNetwork_cases lib evidence <;> rw [hres] at h
  · cases h
  · have h200 : code.toNat = 200 := (HttpOutcome.response.inj h).1
    omega
  · exact ⟨e, i, hcarries, hpasses, (HttpOutcome.response.inj h).2.symm⟩

section Sign

variable {env : Env AccountId} {libs : Set (Libraries Double BigNum Key)}
  {host : Host AccountId Public Signature}

/-- An identity of a plain account is read in the answer it is put in. -/
theorem parseResult_identityBody {parseJson : List Char → Option Value}
    (hparse : ∀ s v, parseJson s = some v ↔ Text s v) {i : Identity}
    (hplain : ∀ c ∈ i.account, PlainByte c) :
    ∃ t, fromUtf8 (identityBody i) = some t ∧ parseResult parseJson t =
      some [hexstring i.reportData, hexstring i.mrEnclave, i.account] := by
  have hwire : wireAccount i.account = utf8 (chars i.account) := by
    rw [wireAccount_plain hplain, utf8_chars (lt_of_plain hplain)]
  refine ⟨_, fromUtf8_eq_some.2 (identityBody_eq hwire), ?_⟩
  rw [parseResult_answerText hparse (plainText_chars hplain)
    (plainText_chars (plain_hexstring _)) (plainText_chars (plain_hexstring _)),
    charBytes_chars, charBytes_chars, charBytes_chars]

/-- **What is signed vouches for the evidence it is signed for.** -/
theorem vouches_of_signed (hparse : ∀ s v, env.parseJson s = some v ↔ Text s v)
    (hhost : AnswersFrom libs host) {applier : AccountId} {evidence : Bytes} {n : ℕ}
    {p : RegisterPayload Public AccountId} {sig : Signature}
    (h : (resolveEvidenceAndSendUnsignedForAnyAccount env host applier evidence n).signed
      = some (p, sig)) : Vouches env libs evidence p := by
  obtain ⟨-, -, body, t, account, accountId, hhttp, ht, hm, hhex, hwho⟩ := signed_eq_some h
  obtain ⟨lib, hlib, hres⟩ := hhost _ _ _ hhttp
  obtain ⟨e, i, hcarries, hpasses, rfl⟩ := passes_of_answered hres
  refine ⟨lib, hlib, e, i, hcarries, hpasses, hres, ⟨t, account, accountId, ht, hm, hhex, hwho⟩,
    fun hplain => ?_⟩
  -- The answer is read as the identity it was written for.
  obtain ⟨t', ht', hm'⟩ := parseResult_identityBody hparse hplain
  rw [ht] at ht'
  cases ht'
  rw [hm] at hm'
  obtain ⟨hpubkey, hcode, rfl⟩ : p.pubkey = _ ∧ p.code = _ ∧ account = _ := by simpa using hm'
  exact ⟨hpubkey, hcode, accountId, hhex, hwho⟩

end Sign

/-! ## What can be attested -/

/-- A text that is read as hexadecimal is plain. -/
theorem plain_of_hexText {s : Bytes} (h : HexText s) : ∀ c ∈ s, PlainByte c := by
  have hdigit : ∀ c, c = 43 ∨ (toDigit c).isSome → PlainByte c := forall_byte (by decide +kernel)
  induction s using HexText.induct with
  | case1 => exact List.forall_mem_nil _
  | case2 c => exact h.elim
  | case3 a b s ih =>
    obtain ⟨ha, hb, hs⟩ := h
    exact List.forall_mem_cons.2 ⟨hdigit a ha, List.forall_mem_cons.2 ⟨hdigit b (.inr hb), ih hs⟩⟩

/-- **An evidence that can be attested**, as an identity of an account: it carries the identity, it
passes the checks of the service, and the text of its account spells the account. -/
structure Attestable (env : Env AccountId) (lib : Libraries Double BigNum Key) (evidence : Bytes)
    (i : Identity) (who : AccountId) : Prop where
  passes : ∃ e, Carries lib evidence e i ∧ lib.sdk.signatureSize ≤ e.sig.length ∧ Passes lib e i
  spells : ∃ accountId, decodeHex i.account = .ok (.ok accountId) ∧
    env.decodeAccountId accountId = some who

/-- The payload of an identity, under a key. -/
def payloadOf (i : Identity) (who : AccountId) (k : Public) : RegisterPayload Public AccountId where
  code := hexstring i.mrEnclave
  who := who
  pubkey := hexstring i.reportData
  publicKey := k

section Attest

variable {env : Env AccountId} {lib : Libraries Double BigNum Key}
  {host : Host AccountId Public Signature} {evidence : Bytes} {i : Identity} {who : AccountId}

/-- The account of an attestable evidence is plain. -/
theorem Attestable.plain (h : Attestable env lib evidence i who) :
    ∀ c ∈ i.account, PlainByte c := by
  obtain ⟨accountId, hhex, -⟩ := h.spells
  exact plain_of_hexText (exists_decodeHex_iff.1 ⟨accountId, hhex⟩)

/-- The service answers an attestable evidence with its identity. -/
theorem Attestable.answered (h : Attestable env lib evidence i who) :
    serviceHttp lib evidence = .response 200 (identityBody i) := by
  obtain ⟨e, hcarries, hsize, hpass⟩ := h.passes
  rw [serviceHttp, entryNetwork_passes hcarries hsize hpass]
  rfl

variable (hparse : ∀ s v, env.parseJson s = some v ↔ Text s v)
include hparse

/-- No answer to an attestable evidence stops the worker. -/
theorem Attestable.survivable (h : Attestable env lib evidence i who)
    (hreach : host.http evidence = serviceHttp lib evidence) :
    Survivable env (host.http evidence) := by
  intro body t pubkey mrenclave account hhttp ht hm _
  obtain ⟨t', ht', hm'⟩ := parseResult_identityBody hparse h.plain
  rw [hreach, h.answered] at hhttp
  obtain ⟨-, rfl⟩ := HttpOutcome.response.inj hhttp
  rw [ht'] at ht
  cases ht
  rw [hm'] at hm
  obtain ⟨-, -, rfl⟩ : _ ∧ _ ∧ i.account = account := by simpa using hm
  obtain ⟨accountId, hhex, -⟩ := h.spells
  exact exists_decodeHex_iff.1 ⟨accountId, hhex⟩

/-- **What can be attested is signed**, at a host the service answers and whose first key signs. -/
theorem signed_of_attestable (h : Attestable env lib evidence i who)
    (hreach : host.http evidence = serviceHttp lib evidence)
    {k : Public} {keys : List Public} (hkeys : host.keys = k :: keys) {sig : Signature}
    (hsign : host.sign (payloadOf i who k) = some sig) (applier : AccountId) (n : ℕ) :
    (resolveEvidenceAndSendUnsignedForAnyAccount env host applier evidence n).signed
      = some (payloadOf i who k, sig) := by
  obtain ⟨accountId, hhex, hwho⟩ := h.spells
  obtain ⟨t, ht, hm⟩ := parseResult_identityBody hparse h.plain
  have hmessage : resolveEvidence env host evidence =
      .ok [hexstring i.reportData, hexstring i.mrEnclave, i.account] :=
    (resolveEvidence_eq_ok env host).2 ⟨_, t, hreach.trans h.answered, ht, hm⟩
  have hutf8 : fromUtf8 i.account = some (chars i.account) :=
    fromUtf8_eq_some.2 (utf8_chars (lt_of_plain h.plain)).symm
  have hfirst : (host.sign ⟨hexstring i.mrEnclave, who, hexstring i.reportData, k⟩).map
      (fun sig => (payloadOf i who k, sig)) = some (payloadOf i who k, sig) :=
    congrArg (Option.map fun sig => (payloadOf i who k, sig)) hsign
  rw [signed_of_message env host hmessage hutf8 (decodeHex_eq_ok.1 hhex) hwho, hkeys]
  refine (List.findSome?_cons_of_isSome ?_).trans hfirst
  exact Option.isSome_of_eq_some hfirst

end Attest

/-! ## A host that asks the service -/

/-- A host of the service, with one key. -/
def serviceHost : Host ℕ ℕ ℕ where
  http := serviceHttp (plainLibraries 1)
  keys := [0]
  sign := fun p => some p.publicKey
  submit := fun _ => .ok ()

theorem http_serviceHost (evidence : Bytes) :
    serviceHost.http evidence = serviceHttp (plainLibraries 1) evidence := rfl

theorem sign_serviceHost (p : RegisterPayload ℕ ℕ) : serviceHost.sign p = some p.publicKey := rfl

/-- The evidence of account `ab`, as `plainEnv` decodes it. -/
theorem attestable_plainRequest :
    Attestable plainEnv (plainLibraries 1) (plainRequest (ascii "ab"))
      (plainIdentity (ascii "ab")) 1 := by
  obtain ⟨e, hcarries, hsig⟩ :=
    carries_plainRequest 1 (ascii "ab") (by decide) (by decide) (by decide)
  have hvalid : ecdsaVerify (plainLibraries 1) e (plainIdentity (ascii "ab")) = 1 := rfl
  have hsize : (plainLibraries 1).sdk.signatureSize ≤ e.sig.length := by
    rw [hsig, length_plainSig]
    decide
  refine ⟨⟨e, hcarries, hsize, by rw [hvalid]; decide, rfl, rfl⟩, [0xab], ?_, rfl⟩
  exact decodeHex_eq_ok.2 (show decodePairs (ascii "ab") = some [0xab] by decide)

end Bridge
