import AttestationChain.Machinery.Bytes
import AttestationChain.Machinery.DoubleMap
import AttestationChain.Machinery.Runs

/-!
# Verifier/Pallet — the storages of the verifier pallet and its three dispatchables

A request queues an evidence for the workers of a later block, a worker's signed report is pushed
on the results of the account and key it names, and root registers the keys reports are accepted
from.  `dispatch_cases` says once what a call can do; every result about the pallet's storage is
read off it.
-/

namespace Verifier

/-! ## Payloads, calls and errors -/

/-- What a worker signs: the code hash and the key of an enclave, and the account it belongs to.
`publicKey` is the source's field `public`. -/
structure RegisterPayload (Public AccountId : Type) where
  code : Bytes
  who : AccountId
  pubkey : Bytes
  publicKey : Public
  deriving DecidableEq

/-- A report as it is recorded. -/
structure RegisterPayloadWithSignature (Public Signature AccountId : Type) where
  payload : RegisterPayload Public AccountId
  signature : Signature
  deriving DecidableEq

/-- A registered key, as `PublicKeys` stores it. -/
structure WrapPublic (Public : Type) where
  publicKey : Public
  deriving DecidableEq

/-- The origin a call is dispatched from. -/
inductive Origin (AccountId : Type)
  | root
  | signed (who : AccountId)
  | none

/-- The events of the pallet. -/
inductive Event (AccountId : Type)
  | requestVerification (who : AccountId) (evidence : Bytes)
  deriving DecidableEq

/-- The errors a dispatch ends with: a bad origin, or one of the pallet's own. -/
inductive DispatchError
  | badOrigin
  | invalidSignature
  | invalidPublic
  deriving DecidableEq

/-- `DispatchResult`. -/
abbrev DispatchResult := Except DispatchError Unit

/-- The calls of the pallet. -/
inductive Call (AccountId Public Signature : Type)
  | requestVerification (evidence : Bytes)
  | submitResultUnsignedWithSignedPayload (blockNumber : ℕ)
      (registerPayload : RegisterPayload Public AccountId) (signature : Signature)
  | registerNewPubkey (pubkey : Public)

/-- What the runtime configures.  `verify` is `SignedPayload::verify` at the configured
`AuthorityId`: whether a signature is one of a payload by the key inside the payload. -/
structure Config (AccountId Public Signature : Type) where
  verifyDelay : ℕ
  evidenceLifetime : ℕ
  unsignedPriority : ℕ
  verify : RegisterPayload Public AccountId → Signature → Bool

/-! ## The state -/

variable {AccountId Public Signature : Type}

/-- The storages of the pallet, with the block number and the events of the chain.  An event is
kept with the block it was deposited in. -/
structure State (AccountId Public Signature : Type) where
  blockNumber : ℕ
  events : List (ℕ × Event AccountId)
  waitingQueue : DoubleMap ℕ AccountId (AccountId × Bytes)
  verificationResults :
    DoubleMap AccountId Bytes (List (RegisterPayloadWithSignature Public Signature AccountId))
  publicKeys : List (WrapPublic Public)

namespace State

/-- Empty storage, at a given block. -/
def genesis (blockNumber : ℕ) : State AccountId Public Signature :=
  ⟨blockNumber, [], ∅, ∅, []⟩

variable [DecidableEq AccountId]

/-- `verification_results(who, pubkey)`, empty where nothing is recorded. -/
def results (s : State AccountId Public Signature) (who : AccountId) (pubkey : Bytes) :
    List (RegisterPayloadWithSignature Public Signature AccountId) :=
  s.verificationResults.getD [] who pubkey

@[simp] theorem results_genesis (n : ℕ) (who : AccountId) (pubkey : Bytes) :
    (genesis n : State AccountId Public Signature).results who pubkey = [] :=
  DoubleMap.getD_empty [] who pubkey

/-- `deposit_event`, in the block under way. -/
def depositEvent (s : State AccountId Public Signature) (e : Event AccountId) :
    State AccountId Public Signature :=
  { s with events := s.events ++ [(s.blockNumber, e)] }

/-- `WaitingQueue::insert`: an evidence queued for a block, under the account that brought it. -/
def enqueue (s : State AccountId Public Signature) (block : ℕ) (who : AccountId)
    (evidence : Bytes) : State AccountId Public Signature :=
  { s with waitingQueue := s.waitingQueue.insert (block, who) (who, evidence) }

/-- `VerificationResults::mutate`: a report pushed on the results it names. -/
def record (s : State AccountId Public Signature) (p : RegisterPayload Public AccountId)
    (sig : Signature) : State AccountId Public Signature :=
  { s with
    verificationResults := s.verificationResults.mutate [] p.who p.pubkey
      fun results => results ++ [⟨p, sig⟩] }

omit [DecidableEq AccountId] in
/-- `PublicKeys::put`, with one key pushed. -/
def register (s : State AccountId Public Signature) (k : Public) :
    State AccountId Public Signature :=
  { s with publicKeys := s.publicKeys ++ [⟨k⟩] }

variable (s : State AccountId Public Signature)

/-- Recording a report touches the results of the account and key it names, and no others. -/
theorem results_record (p : RegisterPayload Public AccountId) (sig : Signature)
    (who : AccountId) (pubkey : Bytes) :
    (s.record p sig).results who pubkey
      = if (who, pubkey) = (p.who, p.pubkey) then s.results who pubkey ++ [⟨p, sig⟩]
        else s.results who pubkey :=
  DoubleMap.getD_mutate _ _ _ _ _ _ _

end State

/-! ## Origins -/

def ensureSigned : Origin AccountId → Except DispatchError AccountId
  | .signed who => .ok who
  | _ => .error .badOrigin

def ensureRoot : Origin AccountId → DispatchResult
  | .root => .ok ()
  | _ => .error .badOrigin

def ensureNone : Origin AccountId → DispatchResult
  | .none => .ok ()
  | _ => .error .badOrigin

/-! ## The dispatchables

A dispatchable returns its result *and* the state it leaves: nothing rolls a failed one back. -/

variable [DecidableEq AccountId]

def requestVerification (c : Config AccountId Public Signature)
    (s : State AccountId Public Signature) (origin : Origin AccountId) (evidence : Bytes) :
    DispatchResult × State AccountId Public Signature :=
  match ensureSigned origin with
  | .error e => (.error e, s)
  | .ok who =>
    let currentBlockNumber := s.blockNumber
    let queued := s.enqueue (currentBlockNumber + c.verifyDelay) who evidence
    (.ok (), queued.depositEvent (.requestVerification who evidence))

def registerNewPubkey (s : State AccountId Public Signature) (origin : Origin AccountId)
    (pubkey : Public) : DispatchResult × State AccountId Public Signature :=
  match ensureRoot origin with
  | .error e => (.error e, s)
  | .ok () => (.ok (), s.register pubkey)

variable [DecidableEq Public]

def submitResultUnsignedWithSignedPayload (c : Config AccountId Public Signature)
    (s : State AccountId Public Signature) (origin : Origin AccountId) (_blockNumber : ℕ)
    (registerPayload : RegisterPayload Public AccountId) (signature : Signature) :
    DispatchResult × State AccountId Public Signature :=
  match ensureNone origin with
  | .error e => (.error e, s)
  | .ok () =>
    let wrapPubkey : WrapPublic Public := ⟨registerPayload.publicKey⟩
    if wrapPubkey ∈ s.publicKeys then
      if c.verify registerPayload signature then (.ok (), s.record registerPayload signature)
      else (.error .invalidSignature, s)
    else (.error .invalidPublic, s)

/-- A call, dispatched. -/
def dispatch (c : Config AccountId Public Signature) (s : State AccountId Public Signature)
    (origin : Origin AccountId) :
    Call AccountId Public Signature → DispatchResult × State AccountId Public Signature
  | .requestVerification evidence => requestVerification c s origin evidence
  | .submitResultUnsignedWithSignedPayload blockNumber registerPayload signature =>
    submitResultUnsignedWithSignedPayload c s origin blockNumber registerPayload signature
  | .registerNewPubkey pubkey => registerNewPubkey s origin pubkey

/-! ## What a dispatch can do -/

section Cases

variable (c : Config AccountId Public Signature) (s : State AccountId Public Signature)

/-- **A report is recorded** from the unsigned origin, for a registered key whose signature
verifies, and from nowhere else. -/
theorem submit_eq_record (n : ℕ) {p : RegisterPayload Public AccountId} {sig : Signature}
    (hkey : ⟨p.publicKey⟩ ∈ s.publicKeys) (hsig : c.verify p sig = true) :
    dispatch c s .none (.submitResultUnsignedWithSignedPayload n p sig)
      = (.ok (), s.record p sig) := by
  simp only [dispatch, submitResultUnsignedWithSignedPayload, ensureNone, if_pos hkey, if_pos hsig]

/-- A report under a key nobody registered is refused. -/
theorem submit_eq_invalidPublic (n : ℕ) {p : RegisterPayload Public AccountId} {sig : Signature}
    (hkey : ⟨p.publicKey⟩ ∉ s.publicKeys) :
    dispatch c s .none (.submitResultUnsignedWithSignedPayload n p sig)
      = (.error .invalidPublic, s) := by
  simp only [dispatch, submitResultUnsignedWithSignedPayload, ensureNone, if_neg hkey]

/-- So is one whose signature does not verify. -/
theorem submit_eq_invalidSignature (n : ℕ) {p : RegisterPayload Public AccountId} {sig : Signature}
    (hkey : ⟨p.publicKey⟩ ∈ s.publicKeys) (hsig : ¬ c.verify p sig = true) :
    dispatch c s .none (.submitResultUnsignedWithSignedPayload n p sig)
      = (.error .invalidSignature, s) := by
  simp only [dispatch, submitResultUnsignedWithSignedPayload, ensureNone, if_pos hkey, if_neg hsig]

/-- **What a dispatch can do**: fail and leave the state alone, queue a request, record a report or
register a key. -/
theorem dispatch_cases (origin : Origin AccountId) (call : Call AccountId Public Signature) :
    (∃ e, dispatch c s origin call = (.error e, s)) ∨
    (∃ who evidence, origin = .signed who ∧ call = .requestVerification evidence ∧
      dispatch c s origin call = (.ok (),
        (s.enqueue (s.blockNumber + c.verifyDelay) who evidence).depositEvent
          (.requestVerification who evidence))) ∨
    (∃ n p sig, origin = .none ∧ call = .submitResultUnsignedWithSignedPayload n p sig ∧
      ⟨p.publicKey⟩ ∈ s.publicKeys ∧ c.verify p sig = true ∧
      dispatch c s origin call = (.ok (), s.record p sig)) ∨
    (∃ k, origin = .root ∧ call = .registerNewPubkey k ∧
      dispatch c s origin call = (.ok (), s.register k)) := by
  cases call with
  | requestVerification evidence =>
    cases origin with
    | signed who => exact .inr (.inl ⟨who, evidence, rfl, rfl, rfl⟩)
    | root => exact .inl ⟨_, rfl⟩
    | none => exact .inl ⟨_, rfl⟩
  | submitResultUnsignedWithSignedPayload n p sig =>
    cases origin with
    | signed who => exact .inl ⟨_, rfl⟩
    | root => exact .inl ⟨_, rfl⟩
    | none =>
      by_cases hkey : ⟨p.publicKey⟩ ∈ s.publicKeys
      · by_cases hsig : c.verify p sig = true
        · exact .inr (.inr (.inl
            ⟨n, p, sig, rfl, rfl, hkey, hsig, submit_eq_record c s n hkey hsig⟩))
        · exact .inl ⟨_, submit_eq_invalidSignature c s n hkey hsig⟩
      · exact .inl ⟨_, submit_eq_invalidPublic c s n hkey⟩
  | registerNewPubkey k =>
    cases origin with
    | root => exact .inr (.inr (.inr ⟨k, rfl, rfl, rfl⟩))
    | signed who => exact .inl ⟨_, rfl⟩
    | none => exact .inl ⟨_, rfl⟩

end Cases

end Verifier
