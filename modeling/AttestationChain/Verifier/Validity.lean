import AttestationChain.Verifier.Pallet

/-!
# Verifier/Validity — the gate an unsigned transaction passes, and the chain behind it

`validateUnsigned` is what the pool runs on an unsigned transaction and what a block runs again
before it includes one.  It looks at the signature and at a window around the block number *in the
call* (`validateUnsigned_isOk_iff`); it does not look at `PublicKeys`, which is where it and the
dispatch part ways (`gate_agrees_iff`).

A chain is a run of `step`: new blocks, and extrinsics dispatched in the block under way.
`Included` is the guard of the runs a chain can make: an extrinsic without an origin passes the gate
in the state and at the block that includes it.
-/

namespace Verifier

variable {AccountId Public Signature : Type}

/-! ## The gate -/

/-- The reasons a transaction is invalid for. -/
inductive InvalidTransaction
  | call
  | badProof
  | future
  | custom (code : UInt8)
  deriving DecidableEq

/-- What the pool keeps of a valid transaction. -/
structure ValidTransaction (Signature : Type) where
  priority : ℕ
  requires : List (String × Signature)
  provides : List (String × Signature)
  longevity : ℕ
  propagate : Bool
  deriving DecidableEq

/-- `ValidityError`. -/
inductive ValidityError
  | outdatedRequest

/-- `u8::from(ValidityError)`. -/
def ValidityError.toUInt8 : ValidityError → UInt8
  | .outdatedRequest => 0

/-- `TransactionValidity`. -/
abbrev TransactionValidity (Signature : Type) :=
  Except InvalidTransaction (ValidTransaction Signature)

def validateTransactionParameters (c : Config AccountId Public Signature)
    (s : State AccountId Public Signature) (blockNumber : ℕ) (_who : AccountId)
    (sig : Signature) : TransactionValidity Signature :=
  let currentBlock := s.blockNumber
  -- The window is checked from above first, so the sum below stays within `currentBlock` plus the
  -- lifetime and cannot overflow before the height itself does.
  if currentBlock < blockNumber then .error .future
  else if currentBlock ≤ blockNumber + c.evidenceLifetime then
    .ok { priority := c.unsignedPriority
          requires := []
          provides := [("Verifier", sig)]
          longevity := 10
          propagate := true }
  else .error (.custom ValidityError.outdatedRequest.toUInt8)

def validateUnsigned (c : Config AccountId Public Signature)
    (s : State AccountId Public Signature) :
    Call AccountId Public Signature → TransactionValidity Signature
  | .submitResultUnsignedWithSignedPayload blockNumber payload signature =>
    if c.verify payload signature then
      validateTransactionParameters c s blockNumber payload.who signature
    else .error .badProof
  | .requestVerification _ => .error .call
  | .registerNewPubkey _ => .error .call

/-- The gate lets a transaction through. -/
def Accepts (c : Config AccountId Public Signature) (s : State AccountId Public Signature)
    (call : Call AccountId Public Signature) : Prop :=
  (validateUnsigned c s call).isOk = true

instance (c : Config AccountId Public Signature) (s : State AccountId Public Signature)
    (call : Call AccountId Public Signature) : Decidable (Accepts c s call) :=
  inferInstanceAs (Decidable (_ = true))

section Gate

variable (c : Config AccountId Public Signature) (s : State AccountId Public Signature)

/-- **What the gate checks of a report**: its signature, and that the block number *argument* is
neither ahead of the chain nor further behind it than the lifetime. -/
theorem accepts_submit_iff {n : ℕ} {p : RegisterPayload Public AccountId} {sig : Signature} :
    Accepts c s (.submitResultUnsignedWithSignedPayload n p sig) ↔
      c.verify p sig = true ∧ n ≤ s.blockNumber ∧ s.blockNumber ≤ n + c.evidenceLifetime := by
  simp only [Accepts, validateUnsigned, validateTransactionParameters]
  split_ifs with hsig hlt hle
  · simp only [Except.isOk, Except.toBool, Bool.false_eq_true, false_iff]
    omega
  · simp only [Except.isOk, Except.toBool, true_iff]
    exact ⟨hsig, by omega, hle⟩
  · simp only [Except.isOk, Except.toBool, Bool.false_eq_true, false_iff]
    omega
  · simp [Except.isOk, Except.toBool, hsig]

/-- Nothing but a report passes the gate. -/
theorem exists_submit_of_accepts {call : Call AccountId Public Signature}
    (h : Accepts c s call) :
    ∃ n p sig, call = .submitResultUnsignedWithSignedPayload n p sig := by
  cases call with
  | submitResultUnsignedWithSignedPayload n p sig => exact ⟨n, p, sig, rfl⟩
  | requestVerification evidence => exact absurd h (by simp [Accepts, validateUnsigned, Except.isOk,
      Except.toBool])
  | registerNewPubkey k => exact absurd h (by simp [Accepts, validateUnsigned, Except.isOk,
      Except.toBool])

variable [DecidableEq AccountId] [DecidableEq Public]

/-- **The gate agrees with the dispatch exactly where the key is registered** — or where the gate
refuses the report already, for its signature or for its window. -/
theorem gate_agrees_iff (n : ℕ) (p : RegisterPayload Public AccountId) (sig : Signature) :
    (Accepts c s (.submitResultUnsignedWithSignedPayload n p sig) →
      (dispatch c s .none (.submitResultUnsignedWithSignedPayload n p sig)).1 = .ok () ∧
      (dispatch c s .none (.submitResultUnsignedWithSignedPayload n p sig)).2.results p.who p.pubkey
        = s.results p.who p.pubkey ++ [⟨p, sig⟩]) ↔
    ⟨p.publicKey⟩ ∈ s.publicKeys ∨ c.verify p sig = false ∨ s.blockNumber < n ∨
      n + c.evidenceLifetime < s.blockNumber := by
  rw [accepts_submit_iff]
  constructor
  · intro h
    by_contra hno
    push Not at hno
    obtain ⟨hkey, hsig, hn, hlife⟩ := hno
    have hok := (h ⟨by simpa using hsig, hn, hlife⟩).1
    rw [submit_eq_invalidPublic c s n hkey] at hok
    cases hok
  · rintro (hkey | hsig | hn | hlife) ⟨hver, hle, hwin⟩
    · rw [submit_eq_record c s n hkey hver]
      exact ⟨rfl, by rw [State.results_record, if_pos rfl]⟩
    · rw [hver] at hsig
      cases hsig
    · omega
    · omega

end Gate

/-- A report under a key nobody registered passes the gate and fails the dispatch: at the genesis of
a chain whose signatures are the keys themselves, the report of key `0`. -/
theorem gate_disagrees :
    ¬ ∀ (c : Config ℕ ℕ ℕ) (s : State ℕ ℕ ℕ) (n : ℕ) (p : RegisterPayload ℕ ℕ) (sig : ℕ),
      Accepts c s (.submitResultUnsignedWithSignedPayload n p sig) →
        (dispatch c s .none (.submitResultUnsignedWithSignedPayload n p sig)).1 = .ok () ∧
        (dispatch c s .none (.submitResultUnsignedWithSignedPayload n p sig)).2.results
          p.who p.pubkey = s.results p.who p.pubkey ++ [⟨p, sig⟩] := by
  intro h
  have hok := (h ⟨5, 600, 2 ^ 20, fun p sig => sig = p.publicKey⟩ (State.genesis 1) 1
    ⟨ascii "c0de", 7, ascii "ab", 0⟩ 0 (by decide)).1
  exact absurd hok (by decide)

/-! ## The chain -/

/-- What a chain does next: open a block, or dispatch an extrinsic in the block under way. -/
inductive Step (AccountId Public Signature : Type)
  | newBlock
  | extrinsic (origin : Origin AccountId) (call : Call AccountId Public Signature)

section Chain

variable [DecidableEq AccountId] [DecidableEq Public] (c : Config AccountId Public Signature)

/-- One step of the chain. -/
def step (s : State AccountId Public Signature) :
    Step AccountId Public Signature → State AccountId Public Signature
  | .newBlock => { s with blockNumber := s.blockNumber + 1 }
  | .extrinsic origin call => (dispatch c s origin call).2

/-- **The gate as a guard**: an extrinsic without an origin is included only where the gate accepts
it; one with an origin needs no gate. -/
def Included (s : State AccountId Public Signature) : Step AccountId Public Signature → Prop
  | .extrinsic .none call => Accepts c s call
  | _ => True

/-- **What a step of the chain can do.** -/
theorem step_cases (s : State AccountId Public Signature) (a : Step AccountId Public Signature) :
    (a = .newBlock ∧ step c s a = { s with blockNumber := s.blockNumber + 1 }) ∨
    step c s a = s ∨
    (∃ who evidence, a = .extrinsic (.signed who) (.requestVerification evidence) ∧
      step c s a = (s.enqueue (s.blockNumber + c.verifyDelay) who evidence).depositEvent
        (.requestVerification who evidence)) ∨
    (∃ n p sig, a = .extrinsic .none (.submitResultUnsignedWithSignedPayload n p sig) ∧
      ⟨p.publicKey⟩ ∈ s.publicKeys ∧ c.verify p sig = true ∧ step c s a = s.record p sig) ∨
    (∃ k, a = .extrinsic .root (.registerNewPubkey k) ∧ step c s a = s.register k) := by
  cases a with
  | newBlock => exact .inl ⟨rfl, rfl⟩
  | extrinsic origin call =>
    rcases dispatch_cases c s origin call with ⟨e, he⟩ | ⟨who, ev, rfl, rfl, he⟩ |
      ⟨n, p, sig, rfl, rfl, hkey, hsig, he⟩ | ⟨k, rfl, rfl, he⟩
    · exact .inr (.inl (congrArg Prod.snd he))
    · exact .inr (.inr (.inl ⟨who, ev, rfl, congrArg Prod.snd he⟩))
    · exact .inr (.inr (.inr (.inl ⟨n, p, sig, rfl, hkey, hsig, congrArg Prod.snd he⟩)))
    · exact .inr (.inr (.inr (.inr ⟨k, rfl, congrArg Prod.snd he⟩)))

end Chain

end Verifier
