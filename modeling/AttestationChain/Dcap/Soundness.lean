import AttestationChain.Dcap.Answers
import AttestationChain.Dcap.Requests

/-!
# Dcap/Soundness — who is answered with an identity

An answer is sound if it vouches for an identity only where the signature and the quote were
verified.  What has to be verified (`Verified`) is said here in its own terms, and `verified_iff`
compares it with the handler's checks.  The handler takes a signature for good unless `ECDSA_verify`
returns 0, and an error is a -1; and it keeps the length of the quote in 32 bits.  `sound_iff` says
which requests get a sound answer nevertheless.
-/

namespace Dcap

open JSON

variable {Double BigNum Key : Type} (lib : Libraries Double BigNum Key)

/-! ## Sound answers -/

/-- The evidence a request carries, and the identity in it. -/
def Carries (body : Bytes) (e : Evidence) (i : Identity) : Prop :=
  ∃ doc : JSON Double, JSON.load lib.doubles body = .ok (doc, .success) ∧
    readEvidence doc = .ok (some e) ∧ readIdentity lib.sdk e = .ok i

/-- The key with the coordinates `x` and `y`, NULL where OpenSSL makes none of them. -/
def KeyOf (openssl : Openssl BigNum Key) (x y : Bytes) (key : Option Key) : Prop :=
  ∀ k, key = some k ↔ ∃ gx gy new, openssl.bnLebin2bn x = some gx ∧
    openssl.bnLebin2bn y = some gy ∧ openssl.ecKeyNew = some new ∧
    ∃ ret, openssl.ecKeySetPublicKeyAffineCoordinates new gx gy = (ret, k) ∧ ret ≠ 0

/-- The results a quote may be verified with: the good one and the five non-terminal ones. -/
def acceptedResults : List QvResult :=
  [.ok, .configNeeded, .outOfDate, .outOfDateConfigNeeded, .swHardeningNeeded,
    .configAndSwHardeningNeeded]

/-- **What has to be verified of the evidence**: over the whole quote and the account behind it the
signature is valid, under the key in the report data of that quote, and the whole quote was verified
with a result that is accepted. -/
structure Verified (e : Evidence) : Prop where
  signature : ∃ key, KeyOf lib.openssl (readAt e.quote lib.sdk.reportDataAt 32)
      (readAt e.quote (lib.sdk.reportDataAt + 32) 32) key ∧
    lib.openssl.ecdsaVerify (lib.sdk.sha256Msg (e.quote ++ e.account))
      (readAt e.sig 0 lib.sdk.signatureSize) key = 1
  quote : ∃ result ∈ acceptedResults,
    lib.sdk.verifyQuote e.quote (supplementalDataSize lib) = (.success, result)

/-- **A sound answer**: an identity that was verified, or a refusal. -/
def Sound (body : Bytes) : Prop :=
  ∃ res, entryNetwork lib body = .ok res ∧
    ((res.status = 200 ∧ ∃ e i, Carries lib body e i ∧ Verified lib e ∧
      res.body = identityBody i) ∨
      (res.status ≠ 200 ∧ res.body ∈ refusals))

/-! ## The answer to each request -/

section Answers

variable {lib} {body : Bytes} {doc : JSON Double} {e : Evidence} {i : Identity}

theorem entryNetwork_unwound (h : JSON.load lib.doubles body = .error .exception) :
    entryNetwork lib body = .ok ⟨500, unwound⟩ := by
  rw [entryNetwork, h]
  rfl

theorem entryNetwork_fault {fault : Fault} (h : JSON.load lib.doubles body = .error fault)
    (hfault : fault ≠ .exception) : entryNetwork lib body = .error fault := by
  rw [entryNetwork, h]
  cases fault <;> first | rfl | exact absurd rfl hfault

theorem entryNetwork_malformed {status : CrustStatus}
    (h : JSON.load lib.doubles body = .ok (doc, status)) (hstatus : status ≠ .success) :
    entryNetwork lib body = .ok ⟨400, refusal "Load ecdsa_identity failed!" 400⟩ := by
  rw [entryNetwork, h]
  dsimp only
  rw [handle, if_pos hstatus]
  exact defRet_refuse lib .null (by decide) (by decide)

theorem entryNetwork_noEvidence (h : JSON.load lib.doubles body = .ok (doc, .success))
    (hnone : readEvidence doc = .ok none) :
    entryNetwork lib body = .ok ⟨400, refusal "Unexpected error" 400⟩ := by
  rw [entryNetwork, h]
  dsimp only
  rw [handle, if_neg (not_not.2 rfl), hnone]
  exact defRet_refuse lib .null (by decide) (by decide)

theorem entryNetwork_evidence_fault {fault : Fault}
    (h : JSON.load lib.doubles body = .ok (doc, .success))
    (hfault : readEvidence doc = .error fault) :
    entryNetwork lib body = .error fault := by
  rw [entryNetwork, h]
  dsimp only
  rw [handle, if_neg (not_not.2 rfl), hfault]
  rfl

theorem entryNetwork_identity_fault {fault : Fault}
    (h : JSON.load lib.doubles body = .ok (doc, .success)) (he : readEvidence doc = .ok (some e))
    (hfault : readIdentity lib.sdk e = .error fault) : entryNetwork lib body = .error fault := by
  rw [entryNetwork, h]
  dsimp only
  rw [handle, if_neg (not_not.2 rfl), he]
  change (readIdentity lib.sdk e >>= _) >>= _ = _
  rw [hfault]
  rfl

/-- A request that carries an identity gets to the checks. -/
theorem entryNetwork_carries (h : Carries lib body e i) :
    entryNetwork lib body =
      (if e.sig.length < lib.sdk.signatureSize then .error .outOfBounds
        else if ecdsaVerify lib e i = 0 then
          Frame.refuse ⟨.null, identityJson i⟩ "Verify identity signature failed!" 500
        else if (verifyQuote lib e).1 ≠ .success then
          Frame.refuse ⟨.null, identityJson i⟩ "Verify quote failed!" 500
        else if accepts (verifyQuote lib e).2 then Frame.setStatusCode ⟨.null, identityJson i⟩ 200
        else Frame.refuse ⟨.null, identityJson i⟩ "Verify quote failed!" 500) >>= defRet lib := by
  obtain ⟨doc, hload, he, hi⟩ := h
  rw [entryNetwork, hload]
  dsimp only
  rw [handle, if_neg (not_not.2 rfl), he]
  change (readIdentity lib.sdk e >>= _) >>= _ = _
  rw [hi]
  rfl

/-- The checks, as they are made. -/
def Passes (lib : Libraries Double BigNum Key) (e : Evidence) (i : Identity) : Prop :=
  ecdsaVerify lib e i ≠ 0 ∧ (verifyQuote lib e).1 = .success ∧ accepts (verifyQuote lib e).2

theorem account_of_readIdentity {sdk : Sdk} (h : readIdentity sdk e = .ok i) :
    i.account = e.account := by
  rw [readIdentity] at h
  split_ifs at h
  exact (congrArg Identity.account (Except.ok.inj h)).symm

/-- A request that passes the checks is answered with its identity… -/
theorem entryNetwork_passes (h : Carries lib body e i)
    (hsig : lib.sdk.signatureSize ≤ e.sig.length) (hpass : Passes lib e i) :
    entryNetwork lib body = .ok ⟨200, identityBody i⟩ := by
  obtain ⟨hecdsa, hquote, haccepts⟩ := hpass
  have hlen : i.account.length < uint32Size := by
    obtain ⟨-, -, -, hi⟩ := h
    have := e.sigDataSz_lt
    rw [account_of_readIdentity hi]
    omega
  rw [entryNetwork_carries h, if_neg (not_lt.2 hsig), if_neg hecdsa, if_neg (not_not.2 hquote),
    if_pos haccepts]
  exact defRet_identity lib hlen

/-- …and one that does not is refused. -/
theorem entryNetwork_fails (h : Carries lib body e i)
    (hsig : lib.sdk.signatureSize ≤ e.sig.length) (hfail : ¬ Passes lib e i) :
    ∃ r ∈ refusals, entryNetwork lib body = .ok ⟨500, r⟩ := by
  rw [entryNetwork_carries h, if_neg (not_lt.2 hsig)]
  have hquote : (Frame.refuse ⟨.null, identityJson i⟩ "Verify quote failed!" 500 >>= defRet lib) =
      .ok ⟨500, refusal "Verify quote failed!" 500⟩ :=
    defRet_refuse lib (identityJson i) (by decide) (by decide)
  by_cases hecdsa : ecdsaVerify lib e i = 0
  · rw [if_pos hecdsa]
    exact ⟨refusal "Verify identity signature failed!" 500, by simp [refusals],
      defRet_refuse lib (identityJson i) (by decide) (by decide)⟩
  rw [if_neg hecdsa]
  refine ⟨refusal "Verify quote failed!" 500, by simp [refusals], ?_⟩
  by_cases hverify : (verifyQuote lib e).1 = .success
  · have haccepts : ¬ accepts (verifyQuote lib e).2 := fun ha => hfail ⟨hecdsa, hverify, ha⟩
    rw [if_neg (not_not.2 hverify), if_neg haccepts]
    exact hquote
  · rw [if_pos hverify]
    exact hquote

theorem entryNetwork_shortSignature (h : Carries lib body e i)
    (hsig : e.sig.length < lib.sdk.signatureSize) :
    entryNetwork lib body = .error .outOfBounds := by
  rw [entryNetwork_carries h, if_pos hsig]
  rfl

/-- **What becomes of a request**: no answer, a refusal, or an identity that passed the checks. -/
theorem entryNetwork_cases (lib : Libraries Double BigNum Key) (body : Bytes) :
    (∃ fault, entryNetwork lib body = .error fault) ∨
      (∃ code r, code ≠ 200 ∧ r ∈ refusals ∧ entryNetwork lib body = .ok ⟨code, r⟩) ∨
      ∃ e i, Carries lib body e i ∧ Passes lib e i ∧
        entryNetwork lib body = .ok ⟨200, identityBody i⟩ := by
  cases hload : JSON.load lib.doubles body with
  | error fault =>
    by_cases hfault : fault = .exception
    · subst hfault
      exact .inr (.inl ⟨500, _, by decide, by simp [refusals], entryNetwork_unwound hload⟩)
    · exact .inl ⟨fault, entryNetwork_fault hload hfault⟩
  | ok r =>
    obtain ⟨doc, status⟩ := r
    by_cases hstatus : status = .success
    swap
    · exact .inr (.inl ⟨400, _, by decide, by simp [refusals],
        entryNetwork_malformed hload hstatus⟩)
    subst hstatus
    rcases he : readEvidence doc with fault | _ | e
    · exact .inl ⟨fault, entryNetwork_evidence_fault hload he⟩
    · exact .inr (.inl ⟨400, _, by decide, by simp [refusals], entryNetwork_noEvidence hload he⟩)
    · cases hi : readIdentity lib.sdk e with
      | error fault => exact .inl ⟨fault, entryNetwork_identity_fault hload he hi⟩
      | ok i =>
        have hcarries : Carries lib body e i := ⟨doc, hload, he, hi⟩
        by_cases hsig : lib.sdk.signatureSize ≤ e.sig.length
        · by_cases hpass : Passes lib e i
          · exact .inr (.inr ⟨e, i, hcarries, hpass, entryNetwork_passes hcarries hsig hpass⟩)
          · obtain ⟨r, hr, hres⟩ := entryNetwork_fails hcarries hsig hpass
            exact .inr (.inl ⟨500, r, by decide, hr, hres⟩)
        · exact .inl ⟨_, entryNetwork_shortSignature hcarries (not_le.1 hsig)⟩

/-- An answer of status 200 is the identity of its request. -/
theorem identityBody_of_answered {res : Response} (h : entryNetwork lib body = .ok res)
    (hstatus : res.status = 200) : ∃ e i, Carries lib body e i ∧ res.body = identityBody i := by
  obtain ⟨fault, hres⟩ | ⟨code, r, hcode, -, hres⟩ | ⟨e, i, hcarries, -, hres⟩ :=
    entryNetwork_cases lib body
  · rw [h] at hres
    cases hres
  · rw [h] at hres
    cases hres
    exact absurd hstatus hcode
  · rw [h] at hres
    cases hres
    exact ⟨e, i, hcarries, rfl⟩

/-- A request carries one identity. -/
theorem Carries.unique {e' : Evidence} {i' : Identity} (h : Carries lib body e i)
    (h' : Carries lib body e' i') : e = e' ∧ i = i' := by
  obtain ⟨doc, hload, he, hi⟩ := h
  obtain ⟨doc', hload', he', hi'⟩ := h'
  rw [hload] at hload'
  cases hload'
  rw [he] at he'
  cases he'
  rw [hi] at hi'
  cases hi'
  exact ⟨rfl, rfl⟩

/-- The evidence a written request carries. -/
theorem carries_request (lib : Libraries Double BigNum Key) {sig quote account : Bytes}
    (haccount : Untagged account) (hsig : 2 * sig.length < uint32Size)
    (hquote : 2 * quote.length < uint32Size) (hlen : account.length < uint32Size)
    (hsz : quote.length + (escaped account).length < uint32Size)
    (hreport : lib.sdk.reportDataAt + 64 ≤ quote.length)
    (hmr : lib.sdk.mrEnclaveAt + 32 ≤ quote.length) :
    Carries lib (request sig quote account) ⟨sig, quote, quote.length, escaped account, hsz⟩
      ⟨readAt quote lib.sdk.reportDataAt 64, readAt quote lib.sdk.mrEnclaveAt 32, escaped account,
        length_readAt hreport, length_readAt hmr⟩ :=
  ⟨_, load_request lib.doubles sig quote haccount,
    readEvidence_requestJson hsig hquote hlen hsz, dif_pos ⟨hreport, hmr⟩⟩

end Answers

/-! ## What the checks are made of -/

section Checks

variable {lib} {e : Evidence} {i : Identity}

/-- A result is accepted if it is one of the six. -/
theorem accepts_iff (result : QvResult) : accepts result ↔ result ∈ acceptedResults := by
  cases result <;> simp [accepts, acceptedResults]

/-- What the key is made of. -/
theorem keyOf_keyFromSgxEc256 (openssl : Openssl BigNum Key) (k : Bytes) :
    KeyOf openssl (k.take 32) ((k.drop 32).take 32) (keyFromSgxEc256 openssl k) := by
  intro key
  rw [keyFromSgxEc256]
  cases hx : openssl.bnLebin2bn (k.take 32) with
  | none => simp
  | some gx =>
    cases hy : openssl.bnLebin2bn ((k.drop 32).take 32) with
    | none => simp
    | some gy =>
      cases hnew : openssl.ecKeyNew with
      | none => simp
      | some new =>
        rcases hset : openssl.ecKeySetPublicKeyAffineCoordinates new gx gy with ⟨ret, made⟩
        by_cases hret : ret = 0 <;> simp [hset, hret]

theorem KeyOf.unique {openssl : Openssl BigNum Key} {x y : Bytes} {key key' : Option Key}
    (h : KeyOf openssl x y key) (h' : KeyOf openssl x y key') : key = key' :=
  Option.ext fun k => (h k).trans (h' k).symm

/-- The length of the quote is kept in 32 bits. -/
theorem quoteSz_of_readEvidence {doc : JSON Double} (h : readEvidence doc = .ok (some e)) :
    e.quoteSz = e.quote.length % uint32Size := by
  obtain ⟨⟨sig, doc₁⟩, -, h⟩ := bind_eq_ok.1 h
  obtain ⟨sigText, -, h⟩ := bind_eq_ok.1 h
  split at h
  · cases h
  obtain ⟨⟨quote, doc₂⟩, -, h⟩ := bind_eq_ok.1 h
  obtain ⟨quoteHexstr, -, h⟩ := bind_eq_ok.1 h
  obtain ⟨⟨account, doc₃⟩, -, h⟩ := bind_eq_ok.1 h
  obtain ⟨accountId, -, h⟩ := bind_eq_ok.1 h
  split at h
  · cases h
  · rename_i pQuote hquote
    dsimp only at h
    split_ifs at h with hsz
    cases h
    rw [(length_hexstringToBytes hquote).2]

/-- The report data is what the quote holds at its place. -/
theorem reportData_of_readIdentity (h : readIdentity lib.sdk e = .ok i) :
    i.reportData = readAt e.quote lib.sdk.reportDataAt 64 := by
  rw [readIdentity] at h
  split_ifs at h
  exact (congrArg Identity.reportData (Except.ok.inj h)).symm

/-- **The checks are those that have to be made**, of a quote whose length was kept. -/
theorem verified_iff (hi : readIdentity lib.sdk e = .ok i) (hsz : e.quoteSz = e.quote.length) :
    Verified lib e ↔ ecdsaVerify lib e i = 1 ∧ (verifyQuote lib e).1 = .success ∧
      accepts (verifyQuote lib e).2 := by
  have hkey : KeyOf lib.openssl (readAt e.quote lib.sdk.reportDataAt 32)
      (readAt e.quote (lib.sdk.reportDataAt + 32) 32)
      (keyFromSgxEc256 lib.openssl i.reportData) := by
    rw [reportData_of_readIdentity hi]
    have hof := keyOf_keyFromSgxEc256 lib.openssl (readAt e.quote lib.sdk.reportDataAt 64)
    simpa [readAt, List.take_take, List.drop_take] using hof
  have hecdsa : ecdsaVerify lib e i = lib.openssl.ecdsaVerify
      (lib.sdk.sha256Msg (e.quote ++ e.account)) (readAt e.sig 0 lib.sdk.signatureSize)
      (keyFromSgxEc256 lib.openssl i.reportData) := by
    rw [ecdsaVerify, Evidence.sigData, hsz, List.take_length, readAt, List.drop_zero]
  have hquote : verifyQuote lib e = lib.sdk.verifyQuote e.quote (supplementalDataSize lib) := by
    rw [verifyQuote, hsz, List.take_length]
  constructor
  · rintro ⟨⟨key, hof, hvalid⟩, result, hresult, hverify⟩
    rw [← hof.unique hkey] at hecdsa
    rw [hquote, hverify, hecdsa, accepts_iff]
    exact ⟨hvalid, rfl, hresult⟩
  · rintro ⟨hvalid, hsuccess, haccepts⟩
    rw [hecdsa] at hvalid
    rw [hquote] at hsuccess haccepts
    exact ⟨⟨_, hkey, hvalid⟩, _, (accepts_iff _).1 haccepts, Prod.ext hsuccess rfl⟩

end Checks

/-! ## Which answers are sound -/

/-- One of the calls comes out so that the request is refused: `ECDSA_verify` returns 0, the quote
is not verified, or its result is none that is accepted. -/
def Refuted (e : Evidence) (i : Identity) : Prop :=
  ecdsaVerify lib e i = 0 ∨ (verifyQuote lib e).1 ≠ .success ∨ ¬ accepts (verifyQuote lib e).2

/-- The documents that are answered soundly: there is no evidence in them, or there is evidence long
enough for an identity and a signature, and it is refuted or the signature valid.  Of a quote of
4 GiB and more the calls see a part; the whole of it has to be good as well. -/
def DefendedDoc (doc : JSON Double) : Prop :=
  match readEvidence doc with
  | .error _ => False
  | .ok none => True
  | .ok (some e) => lib.sdk.signatureSize ≤ e.sig.length ∧
    ∃ i, readIdentity lib.sdk e = .ok i ∧ (Refuted lib e i ∨
      if e.quote.length < uint32Size then ecdsaVerify lib e i = 1 else Verified lib e)

/-- **The requests that are answered soundly**: the parser throws or reports an error, or the
document it reads is one of those. -/
def Defended (body : Bytes) : Prop :=
  match JSON.load lib.doubles body with
  | .error fault => fault = .exception
  | .ok (doc, status) => status = .success → DefendedDoc lib doc

section Sound

variable {lib} {body : Bytes} {e : Evidence} {i : Identity}

/-- A refusal is a sound answer. -/
theorem sound_of_refused {code : ℤ} {r : Bytes} (hcode : code ≠ 200) (hr : r ∈ refusals)
    (h : entryNetwork lib body = .ok ⟨code, r⟩) : Sound lib body :=
  ⟨_, h, .inr ⟨hcode, hr⟩⟩

/-- No answer is none. -/
theorem not_sound_of_fault {fault : Fault} (h : entryNetwork lib body = .error fault) :
    ¬ Sound lib body := by
  rintro ⟨res, hres, -⟩
  rw [h] at hres
  cases hres

/-- **The slip**: the checks are passed by what is not verified, an error of `ECDSA_verify`
before all. -/
theorem not_sound_of_passes (h : Carries lib body e i) (hsig : lib.sdk.signatureSize ≤ e.sig.length)
    (hpass : Passes lib e i) (hno : ¬ Verified lib e) : ¬ Sound lib body := by
  rintro ⟨res, hres, ⟨-, e', i', hcarries, hverified, -⟩ | ⟨hstatus, -⟩⟩
  · obtain ⟨rfl, rfl⟩ := h.unique hcarries
    exact hno hverified
  · rw [entryNetwork_passes h hsig hpass] at hres
    cases hres
    exact hstatus rfl

/-- Libraries whose calls come out as told: a key is made of every identity, every quote is good,
and `ECDSA_verify` returns `ecdsa`. -/
def plainLibraries (ecdsa : ℤ) : Libraries Unit Unit Unit where
  doubles := plainDoubles
  openssl := ⟨fun _ => some (), some (), fun key _ _ => (1, key), fun _ _ _ => ecdsa⟩
  sdk := ⟨368, 112, 64, 0, fun _ => List.replicate 32 0, (.error 1, 0), fun _ _ => (.success, .ok)⟩

/-- A signature, a quote, and the request of an account with them. -/
def plainSig : Bytes := List.replicate 64 0

def plainQuote : Bytes := List.replicate 432 0

def plainRequest (account : Bytes) : Bytes := request plainSig plainQuote account

theorem length_plainSig : plainSig.length = 64 := List.length_replicate

theorem length_plainQuote : plainQuote.length = 432 := List.length_replicate

/-- The identity that request carries. -/
def plainIdentity (account : Bytes) : Identity :=
  ⟨readAt plainQuote 368 64, readAt plainQuote 112 32, escaped account,
    length_readAt (by rw [length_plainQuote]), length_readAt (by rw [length_plainQuote]; decide)⟩

theorem carries_plainRequest (ecdsa : ℤ) (account : Bytes) (h : Untagged account)
    (hlen : account.length < uint32Size) (hsz : 432 + (escaped account).length < uint32Size) :
    ∃ e, Carries (plainLibraries ecdsa) (plainRequest account) e (plainIdentity account) ∧
      e.sig = plainSig := by
  refine ⟨_, carries_request (plainLibraries ecdsa) h ?_ ?_ hlen ?_ ?_ ?_, rfl⟩
  · rw [length_plainSig]; decide
  · rw [length_plainQuote]; decide
  · rwa [length_plainQuote]
  · exact (show 368 + 64 ≤ 432 by decide).trans length_plainQuote.ge
  · exact (show 112 + 32 ≤ 432 by decide).trans length_plainQuote.ge

/-- **An identity nobody signed**: `ECDSA_verify` reports an error, and the service answers 200. -/
theorem answered_unsigned : ¬ Sound (plainLibraries (-1)) (plainRequest (ascii "alice")) := by
  obtain ⟨e, hcarries, hsig⟩ :=
    carries_plainRequest (-1) (ascii "alice") (by decide) (by decide) (by decide)
  have herror : ecdsaVerify (plainLibraries (-1)) e (plainIdentity (ascii "alice")) = -1 := rfl
  refine not_sound_of_passes hcarries ?_ ⟨by rw [herror]; decide, rfl, rfl⟩ ?_
  · rw [hsig, length_plainSig]
    decide
  · rintro ⟨⟨key, -, hvalid⟩, -⟩
    exact absurd (show (-1 : ℤ) = 1 from hvalid) (by decide)

/-- What is left once a request carries an identity and a signature. -/
theorem sound_iff_of_carries (h : Carries lib body e i)
    (hsig : lib.sdk.signatureSize ≤ e.sig.length) :
    Sound lib body ↔ Refuted lib e i ∨ Verified lib e := by
  by_cases hpass : Passes lib e i
  · have hrefuted : ¬ Refuted lib e i := by
      rintro (h0 | hq | ha)
      · exact hpass.1 h0
      · exact hq hpass.2.1
      · exact ha hpass.2.2
    rw [or_iff_right hrefuted]
    by_cases hverified : Verified lib e
    · exact iff_of_true ⟨_, entryNetwork_passes h hsig hpass,
        .inl ⟨rfl, e, i, h, hverified, rfl⟩⟩ hverified
    · exact iff_of_false (not_sound_of_passes h hsig hpass hverified) hverified
  · obtain ⟨r, hr, hres⟩ := entryNetwork_fails h hsig hpass
    refine iff_of_true (sound_of_refused (by decide) hr hres) (.inl ?_)
    by_contra hno
    rw [Refuted] at hno
    push Not at hno
    exact hpass hno

/-- Of a quote whose length was kept, the calls say whether the signature is valid. -/
theorem refuted_or_verified_iff (h : Carries lib body e i) :
    Refuted lib e i ∨ Verified lib e ↔ Refuted lib e i ∨
      if e.quote.length < uint32Size then ecdsaVerify lib e i = 1 else Verified lib e := by
  obtain ⟨doc, -, he, hi⟩ := h
  split_ifs with hlen
  · have hsz : e.quoteSz = e.quote.length := by
      rw [quoteSz_of_readEvidence he, Nat.mod_eq_of_lt hlen]
    rw [verified_iff hi hsz, Refuted]
    tauto
  · rfl

theorem sound_iff_of_load {doc : JSON Double}
    (h : JSON.load lib.doubles body = .ok (doc, .success)) :
    Sound lib body ↔ DefendedDoc lib doc := by
  rw [DefendedDoc]
  cases he : readEvidence doc with
  | error fault => exact iff_of_false (not_sound_of_fault (entryNetwork_evidence_fault h he)) id
  | ok o =>
    cases o with
    | none =>
      exact iff_of_true (sound_of_refused (by decide) (by simp [refusals])
        (entryNetwork_noEvidence h he)) trivial
    | some e =>
      cases hi : readIdentity lib.sdk e with
      | error fault =>
        refine iff_of_false (not_sound_of_fault (entryNetwork_identity_fault h he hi)) ?_
        rintro ⟨-, i, hi', -⟩
        rw [hi] at hi'
        cases hi'
      | ok i =>
        have hcarries : Carries lib body e i := ⟨doc, h, he, hi⟩
        by_cases hsig : lib.sdk.signatureSize ≤ e.sig.length
        · rw [sound_iff_of_carries hcarries hsig, refuted_or_verified_iff hcarries]
          simp [hsig, hi]
        · exact iff_of_false (not_sound_of_fault
            (entryNetwork_shortSignature hcarries (not_le.1 hsig))) fun h => hsig h.1

end Sound

/-- **The exact condition.** -/
theorem sound_iff (body : Bytes) : Sound lib body ↔ Defended lib body := by
  rw [Defended]
  cases hload : JSON.load lib.doubles body with
  | error fault =>
    by_cases hfault : fault = .exception
    · subst hfault
      exact iff_of_true (sound_of_refused (by decide) (by simp [refusals])
        (entryNetwork_unwound hload)) rfl
    · exact iff_of_false (not_sound_of_fault (entryNetwork_fault hload hfault)) hfault
  | ok r =>
    obtain ⟨doc, status⟩ := r
    by_cases hstatus : status = .success
    · subst hstatus
      exact (sound_iff_of_load hload).trans ⟨fun h _ => h, fun h => h rfl⟩
    · exact iff_of_true (sound_of_refused (by decide) (by simp [refusals])
        (entryNetwork_malformed hload hstatus)) fun h => absurd h hstatus

end Dcap
