import AttestationChain.Verifier.Hex
import AttestationChain.Verifier.Pallet
import AttestationChain.Verifier.Response

/-!
# Verifier/Worker — the offchain worker, one queued evidence after another

For every evidence queued for a block the worker posts it to the service, reads the identity in the
answer, signs it with the first key that can sign and submits the report.  An attempt returns, or it
panics, and a panic ends the run (`attempts`).

What a worker meets is given from outside: `Env` is what every node shares — the parser, the account
codec, the order storage is walked in — and a `Host` is what one attempt meets: the service, the
keystore and the pool.
-/

namespace Verifier

open JsonText

variable {AccountId Public Signature : Type}

/-! ## What the worker meets -/

/-- `http::Error`. -/
inductive HttpError
  | deadlineReached
  | ioError
  | unknown
  deriving DecidableEq

/-- How a posted request goes: it is not sent, not answered in time, answered by an error of the
host, or answered. -/
inductive HttpOutcome
  | notSent
  | notInTime
  | failed (e : HttpError)
  | response (code : ℕ) (body : Bytes)

/-- The order a storage map is walked in: one of its entries, given by the hashes of their keys. -/
structure Iteration (α : Type) where
  order : List α → List α
  perm : ∀ l, (order l).Perm l

/-- The order of insertion. -/
def Iteration.id (α : Type) : Iteration α := ⟨fun l => l, List.Perm.refl⟩

/-- What every node shares: `lite_json::parse_json`, `AccountId::decode` and the walk of the
queue. -/
structure Env (AccountId : Type) where
  parseJson : List Char → Option Value
  decodeAccountId : Bytes → Option AccountId
  iteration : Iteration (AccountId × (AccountId × Bytes))

/-- What one attempt meets: the answer to each posted evidence, the keys of the keystore, what
signing a payload with its own key yields, and what submitting a call returns. -/
structure Host (AccountId Public Signature : Type) where
  http : Bytes → HttpOutcome
  keys : List Public
  sign : RegisterPayload Public AccountId → Option Signature
  submit : Call AccountId Public Signature → Except Unit Unit

/-! ## One attempt -/

/-- What an attempt comes to: what it returns, unless it panics, and the pair it signed, if any. -/
structure Outcome (AccountId Public Signature : Type) where
  result : Except Panic (Except String Unit)
  signed : Option (RegisterPayload Public AccountId × Signature)

section Attempt

variable (env : Env AccountId) (host : Host AccountId Public Signature)

def resolveEvidence (evidence : Bytes) : Except HttpError (List Bytes) :=
  match host.http evidence with
  | .notSent => .error .ioError
  | .notInTime => .error .deadlineReached
  | .failed e => .error e
  | .response code body =>
    if code ≠ 200 then .error .unknown
    else
      match fromUtf8 body with
      | none => .error .unknown
      | some bodyStr =>
        match parseResult env.parseJson bodyStr with
        | none => .error .unknown
        | some message => .ok message

/-- `Signer::any_account().send_unsigned_transaction`: the first key that signs its payload, and
what submitting the call made of it returns. -/
def sendUnsignedTransaction (f : Public → RegisterPayload Public AccountId)
    (f2 : RegisterPayload Public AccountId → Signature → Call AccountId Public Signature) :
    Option ((RegisterPayload Public AccountId × Signature) × Except Unit Unit) :=
  host.keys.findSome? fun public_ =>
    (host.sign (f public_)).map fun signature =>
      ((f public_, signature), host.submit (f2 (f public_) signature))

def resolveEvidenceAndSendUnsignedForAnyAccount (_applier : AccountId) (evidence : Bytes)
    (blockNumber : ℕ) : Outcome AccountId Public Signature :=
  match resolveEvidence env host evidence with
  | .error _ => ⟨.ok (.error "Resolve evidence failed"), none⟩
  | .ok [pubkey, mrenclave, account] =>
    match fromUtf8 account with
    | none => ⟨.ok (.error "Invalid account id"), none⟩
    | some _ =>
      match decodeHex account with
      | .error panic => ⟨.error panic, none⟩
      | .ok (.error _) => ⟨.error .unwrapOnErr, none⟩
      | .ok (.ok accountId) =>
        match env.decodeAccountId accountId with
        | none => ⟨.ok (.error "Resolve account id failed"), none⟩
        | some who =>
          let sent := sendUnsignedTransaction host
            (fun public_ =>
              { pubkey := pubkey, code := mrenclave, who := who, publicKey := public_ })
            (fun payload signature =>
              .submitResultUnsignedWithSignedPayload blockNumber payload signature)
          match sent with
          | none => ⟨.ok (.error "No local accounts accounts available."), none⟩
          | some (pair, .error ()) => ⟨.ok (.error "Unable to submit transaction"), some pair⟩
          | some (pair, .ok ()) => ⟨.ok (.ok ()), some pair⟩
  -- `message[2]`, of a message with fewer entries than three.
  | .ok _ => ⟨.error .indexOutOfBounds, none⟩

end Attempt

/-! ## A run over the queue -/

/-- An attempt of a run: the evidence it was for, and what it came to. -/
structure Attempt (AccountId Public Signature : Type) where
  applier : AccountId
  evidence : Bytes
  outcome : Outcome AccountId Public Signature

/-- The attempts made on a queue, in order, until one panics. -/
def attempts (env : Env AccountId) (blockNumber : ℕ) :
    (hosts : ℕ → Host AccountId Public Signature) → List (AccountId × Bytes) →
      List (Attempt AccountId Public Signature)
  | _, [] => []
  | hosts, (who, evidence) :: queue =>
    let outcome :=
      resolveEvidenceAndSendUnsignedForAnyAccount env (hosts 0) who evidence blockNumber
    match outcome.result with
    | .error _ => [⟨who, evidence, outcome⟩]
    | .ok _ => ⟨who, evidence, outcome⟩ :: attempts env blockNumber (fun i => hosts (i + 1)) queue

/-- An evidence, as it stands in the queue: under a block and the account that brought it. -/
structure QueuedEvidence (AccountId : Type) where
  block : ℕ
  applier : AccountId
  evidence : Bytes
  deriving DecidableEq

/-- A report a worker signed, with the evidence it signed it for. -/
structure SignedReport (AccountId Public Signature : Type) where
  queued : QueuedEvidence AccountId
  report : RegisterPayloadWithSignature Public Signature AccountId
  deriving DecidableEq

/-- The reports a run for a block signed, in order. -/
def signedReports (block : ℕ) (run : List (Attempt AccountId Public Signature)) :
    List (SignedReport AccountId Public Signature) :=
  run.filterMap fun a =>
    a.outcome.signed.map fun pair => ⟨⟨block, a.applier, a.evidence⟩, ⟨pair.1, pair.2⟩⟩

variable [DecidableEq AccountId]

/-- `WaitingQueue::iter_prefix_values`, in the order of the walk. -/
def queuedAt (env : Env AccountId) (s : State AccountId Public Signature) (block : ℕ) :
    List (AccountId × Bytes) :=
  (env.iteration.order (s.waitingQueue.prefixEntries block)).map Prod.snd

/-- `offchain_worker`: one run for a block, on a node that is a validator or is not. -/
def offchainWorker (env : Env AccountId) (isValidator : Bool)
    (hosts : ℕ → Host AccountId Public Signature) (s : State AccountId Public Signature)
    (blockNumber : ℕ) : List (Attempt AccountId Public Signature) :=
  if isValidator then attempts env blockNumber hosts (queuedAt env s blockNumber) else []

/-! ## What an attempt returns -/

section Returns

variable (env : Env AccountId) (host : Host AccountId Public Signature)

omit [DecidableEq AccountId] in
/-- **A message has three entries**, and comes from a text answered with 200. -/
theorem resolveEvidence_eq_ok {evidence : Bytes} {m : List Bytes} :
    resolveEvidence env host evidence = .ok m ↔
      ∃ body t, host.http evidence = .response 200 body ∧ fromUtf8 body = some t ∧
        parseResult env.parseJson t = some m := by
  rw [resolveEvidence]
  constructor
  · intro h
    split at h
    · cases h
    · cases h
    · cases h
    · rename_i code body hhttp
      split_ifs at h with hcode
      split at h
      · cases h
      · rename_i t ht
        split at h
        · cases h
        · rename_i m' hm
          cases h
          rw [not_not.1 hcode] at hhttp
          exact ⟨body, t, hhttp, ht, hm⟩
  · rintro ⟨body, t, hhttp, ht, hm⟩
    simp [hhttp, ht, hm]

omit [DecidableEq AccountId] in
/-- **A readable answer is signed** by the first key that can: a message whose account is
hexadecimal and decodes. -/
theorem signed_of_message {evidence : Bytes} {pubkey mrenclave account bs : Bytes}
    {cs : List Char} {who : AccountId}
    (hm : resolveEvidence env host evidence = .ok [pubkey, mrenclave, account])
    (hcs : fromUtf8 account = some cs) (hbs : decodePairs account = some bs)
    (hwho : env.decodeAccountId bs = some who) (applier : AccountId) (n : ℕ) :
    (resolveEvidenceAndSendUnsignedForAnyAccount env host applier evidence n).signed
      = host.keys.findSome? fun k =>
          (host.sign ⟨mrenclave, who, pubkey, k⟩).map
          fun sig => (⟨mrenclave, who, pubkey, k⟩, sig) := by
  have hsent : ∀ (keys : List Public) (f : Public → RegisterPayload Public AccountId)
      (f2 : RegisterPayload Public AccountId → Signature → Call AccountId Public Signature),
      (keys.findSome? fun k => (host.sign (f k)).map fun sig =>
        ((f k, sig), host.submit (f2 (f k) sig))).map Prod.fst
        = keys.findSome? fun k => (host.sign (f k)).map fun sig => (f k, sig) := by
    intro keys f f2
    induction keys with
    | nil => rfl
    | cons k keys ih =>
      rcases hsign : host.sign (f k) with _ | sig
      · simpa [hsign] using ih
      · simp [hsign]
  rw [← hsent host.keys _ (fun p sig => .submitResultUnsignedWithSignedPayload n p sig)]
  simp only [resolveEvidenceAndSendUnsignedForAnyAccount, hm, hcs, decodeHex_eq_ok.2 hbs, hwho,
    sendUnsignedTransaction]
  split <;> simp [*]

end Returns

omit [DecidableEq AccountId] in
/-- What the first attempt signs, the run signed. -/
theorem mem_signedReports_attempts (env : Env AccountId) (block : ℕ)
    (hosts : ℕ → Host AccountId Public Signature) {who : AccountId} {evidence : Bytes}
    (queue : List (AccountId × Bytes)) {p : RegisterPayload Public AccountId} {sig : Signature}
    (h : (resolveEvidenceAndSendUnsignedForAnyAccount env (hosts 0) who evidence block).signed
      = some (p, sig)) :
    ⟨⟨block, who, evidence⟩, ⟨p, sig⟩⟩ ∈
      signedReports block (attempts env block hosts ((who, evidence) :: queue)) := by
  rw [attempts]
  split <;> simp [signedReports, h]

end Verifier
