import AttestationChain.Dcap.Json.Dump
import AttestationChain.Dcap.Json.Parse

/-!
# Dcap/EntryNetwork — the `/entryNetwork` handler

A request carries a signature, a quote and an account.  The handler reads the identity off the
quote, checks the signature with the key in the identity, has the quote verified, and leaves a
status and a message behind; the closure `def_ret` turns them into the answer when the handler
returns, whichever way it does.

What the handler calls outside the repository is given by `Libraries`.
-/

namespace Dcap

open JSON

/-! ## What the handler calls -/

/-- `quote3_error_t`. -/
inductive Quote3Error
  | success
  | error (code : ℕ)
  deriving DecidableEq

/-- `sgx_ql_qv_result_t`. -/
inductive QvResult
  | ok
  | configNeeded
  | outOfDate
  | outOfDateConfigNeeded
  | swHardeningNeeded
  | configAndSwHardeningNeeded
  | invalidSignature
  | revoked
  | unspecified
  | other (code : ℕ)
  deriving DecidableEq

/-- What the handler takes from the SGX SDK: where a quote holds its report data and its
measurement, the sizes of a signature and of the supplemental data, and the three calls. -/
structure Sdk where
  reportDataAt : ℕ
  mrEnclaveAt : ℕ
  signatureSize : ℕ
  supplementalSize : ℕ
  sha256Msg : Bytes → Bytes
  getQuoteSupplementalDataSize : Quote3Error × ℕ
  /-- Of a quote, with supplemental data of that size. -/
  verifyQuote : Bytes → ℕ → Quote3Error × QvResult

structure Libraries (Double BigNum Key : Type) where
  doubles : Doubles Double
  openssl : Openssl BigNum Key
  sdk : Sdk

/-! ## The request -/

/-- What a request carries: the blocks its signature and its quote were decoded to, how much of the
quote is used, and the account.  The length of what is signed fits into 32 bits. -/
structure Evidence where
  sig : Bytes
  quote : Bytes
  quoteSz : ℕ
  account : Bytes
  sigDataSz_lt : quoteSz + account.length < uint32Size

/-- What was signed: the quote, and behind it the account. -/
def Evidence.sigData (e : Evidence) : Bytes := e.quote.take e.quoteSz ++ e.account

variable {Double BigNum Key : Type}

/-- Reading the request: there is no evidence in one whose signature has an odd length.  A quote of
odd length is a NULL, which is read nevertheless, and data too long for its 32-bit length is copied
into a block too short. -/
def readEvidence (doc : JSON Double) : Except Fault (Option Evidence) := do
  let (sig, doc) ← doc.index (ascii "sig")
  let sig ← sig.toString
  match hexstringToBytes sig with
  | none => .ok none
  | some pSig => do
    let (quote, doc) ← doc.index (ascii "quote")
    let quoteHexstr ← quote.toString
    let (account, _) ← doc.index (ascii "account")
    let accountId ← account.toString
    match hexstringToBytes quoteHexstr with
    | none => .error .outOfBounds
    | some pQuote =>
      let quoteSz := quoteHexstr.length / 2 % uint32Size
      if h : quoteSz + accountId.length < uint32Size then
        .ok (some ⟨pSig, pQuote, quoteSz, accountId, h⟩)
      else .error .outOfBounds

/-- The identity a quote and an account make up. -/
structure Identity where
  reportData : Bytes
  mrEnclave : Bytes
  account : Bytes
  length_reportData : reportData.length = 64
  length_mrEnclave : mrEnclave.length = 32

/-- A block read at an offset. -/
def readAt (mem : Bytes) (offset size : ℕ) : Bytes := (mem.drop offset).take size

theorem length_readAt {mem : Bytes} {offset size : ℕ} (h : offset + size ≤ mem.length) :
    (readAt mem offset size).length = size := by
  rw [readAt, List.length_take, List.length_drop]
  omega

/-- Reading the identity off the quote, and the account beside it. -/
def readIdentity (sdk : Sdk) (e : Evidence) : Except Fault Identity :=
  if h : sdk.reportDataAt + 64 ≤ e.quote.length ∧ sdk.mrEnclaveAt + 32 ≤ e.quote.length then
    .ok ⟨readAt e.quote sdk.reportDataAt 64, readAt e.quote sdk.mrEnclaveAt 32, e.account,
      length_readAt h.1, length_readAt h.2⟩
  else .error .outOfBounds

/-! ## The answer -/

/-- `ret_body` and `id`, which `def_ret` holds on to. -/
structure Frame (Double : Type) where
  retBody : JSON Double
  id : JSON Double

/-- The frame the handler starts with. -/
def Frame.empty : Frame Double := ⟨.null, .null⟩

/-- `ret_body["status_code"] = code`. -/
def Frame.setStatusCode (frame : Frame Double) (code : ℤ) : Except Fault (Frame Double) := do
  let retBody ← frame.retBody.set (ascii "status_code") (.integral code)
  .ok { frame with retBody }

/-- A message and a status, with which the handler gives up. -/
def Frame.refuse (frame : Frame Double) (message : String) (code : ℤ) :
    Except Fault (Frame Double) := do
  let retBody ← frame.retBody.set (ascii "message") (.string (ascii message))
  Frame.setStatusCode { frame with retBody } code

/-- `id["pubkey"]`, `id["mrenclave"]` and `id["account"]`. -/
def Frame.setId (frame : Frame Double) (i : Identity) : Except Fault (Frame Double) := do
  let id ← frame.id.set (ascii "pubkey") (.string (hexstring i.reportData))
  let id ← id.set (ascii "mrenclave") (.string (hexstring i.mrEnclave))
  let id ← id.set (ascii "account") (.string i.account)
  .ok { frame with id }

/-- `Response`: the status and the body of an answer. -/
structure Response where
  status : ℤ
  body : Bytes

section Handler

variable (lib : Libraries Double BigNum Key)

/-- `def_ret`. -/
def defRet (frame : Frame Double) : Except Fault Response := do
  let (statusCode, retBody) ← frame.retBody.index (ascii "status_code")
  let status := statusCode.toInt
  let retBody ← if status = 200 then retBody.set (ascii "message") frame.id else .ok retBody
  let body ← retBody.dump lib.doubles (ascii "  ") false 1
  .ok ⟨status, removeChar (removeChar body 92) 10⟩

/-- What `ECDSA_verify` makes of the signature, under the key in the identity. -/
def ecdsaVerify (e : Evidence) (i : Identity) : ℤ :=
  lib.openssl.ecdsaVerify (lib.sdk.sha256Msg e.sigData) (e.sig.take lib.sdk.signatureSize)
    (keyFromSgxEc256 lib.openssl i.reportData)

/-- The size of the supplemental data the handler asks for: none, unless it is of the size it
knows. -/
def supplementalDataSize : ℕ :=
  if lib.sdk.getQuoteSupplementalDataSize = (.success, lib.sdk.supplementalSize) then
    lib.sdk.supplementalSize
  else 0

/-- What `sgx_qv_verify_quote` makes of the quote. -/
def verifyQuote (e : Evidence) : Quote3Error × QvResult :=
  lib.sdk.verifyQuote (e.quote.take e.quoteSz) (supplementalDataSize lib)

/-- The results the handler accepts: the good one, and the non-terminal ones. -/
def accepts : QvResult → Bool
  | .ok | .configNeeded | .outOfDate | .outOfDateConfigNeeded | .swHardeningNeeded
  | .configAndSwHardeningNeeded => true
  | .invalidSignature | .revoked | .unspecified | .other _ => false

/-- The handler, from the document of the request on. -/
def handle (doc : JSON Double) (crustStatus : CrustStatus) : Except Fault (Frame Double) := do
  if crustStatus ≠ .success then Frame.empty.refuse "Load ecdsa_identity failed!" 400
  else
    match ← readEvidence doc with
    | none => Frame.empty.refuse "Unexpected error" 400
    | some e => do
      let i ← readIdentity lib.sdk e
      let frame ← Frame.empty.setId i
      if e.sig.length < lib.sdk.signatureSize then .error .outOfBounds
      else if ecdsaVerify lib e i = 0 then frame.refuse "Verify identity signature failed!" 500
      else if (verifyQuote lib e).1 ≠ .success then frame.refuse "Verify quote failed!" 500
      else if accepts (verifyQuote lib e).2 then frame.setStatusCode 200
      else frame.refuse "Verify quote failed!" 500

/-- **The answer to a request.**  Only loading its document throws; the server then answers 500,
over what `def_ret` left. -/
def entryNetwork (body : Bytes) : Except Fault Response :=
  match JSON.load lib.doubles body with
  | .error .exception => do
    let res ← defRet lib Frame.empty
    .ok { res with status := 500 }
  | .error fault => .error fault
  | .ok (doc, crustStatus) => do
    let frame ← handle lib doc crustStatus
    defRet lib frame

end Handler

end Dcap
