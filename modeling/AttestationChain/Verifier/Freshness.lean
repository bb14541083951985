import AttestationChain.Verifier.Validity
import AttestationChain.Verifier.Worker

/-!
# Verifier/Freshness — how old a report can be when it is recorded

A report carries no block number: `submit_result_unsigned_with_signed_payload` takes one as an
argument of its own, and the window of the gate is around *that*.  So the age of a report is bounded
exactly where the argument is not moved past the block it was signed at (`report_fresh_iff`).
-/

namespace Verifier

open JsonText

variable {AccountId Public Signature : Type} [DecidableEq AccountId] [DecidableEq Public]

/-- **A report is stale behind a block**: no state past the block and the lifetime has its call
accepted by the gate, and no extrinsic included there has it recorded. -/
structure StaleBehind (c : Config AccountId Public Signature) (b n : ℕ)
    (p : RegisterPayload Public AccountId) (sig : Signature) : Prop where
  refused : ∀ s : State AccountId Public Signature, b + c.evidenceLifetime < s.blockNumber →
    ¬ Accepts c s (.submitResultUnsignedWithSignedPayload n p sig)
  unrecorded : ∀ s : State AccountId Public Signature, b + c.evidenceLifetime < s.blockNumber →
    ∀ origin, Included c s (.extrinsic origin (.submitResultUnsignedWithSignedPayload n p sig)) →
      (step c s (.extrinsic origin
        (.submitResultUnsignedWithSignedPayload n p sig))).verificationResults
        = s.verificationResults

variable (c : Config AccountId Public Signature)

/-- A report no gate accepts is not recorded. -/
theorem unrecorded_of_refused (s : State AccountId Public Signature) {n : ℕ}
    {p : RegisterPayload Public AccountId} {sig : Signature}
    (h : ¬ Accepts c s (.submitResultUnsignedWithSignedPayload n p sig)) (origin : Origin AccountId)
    (hinc : Included c s (.extrinsic origin (.submitResultUnsignedWithSignedPayload n p sig))) :
    (step c s (.extrinsic origin
      (.submitResultUnsignedWithSignedPayload n p sig))).verificationResults
      = s.verificationResults := by
  cases origin with
  | none => exact absurd hinc h
  | root => rfl
  | signed who => rfl

/-- **Where the window ends**: a report whose signature verifies is stale behind a block exactly if
its call does not name a later one. -/
theorem staleBehind_iff (b n : ℕ) (p : RegisterPayload Public AccountId) (sig : Signature) :
    StaleBehind c b n p sig ↔ n ≤ b ∨ c.verify p sig = false := by
  constructor
  · intro h
    by_contra hno
    push Not at hno
    obtain ⟨hn, hsig⟩ := hno
    -- The last block of the window around the argument lies past the window around `b`.
    refine h.refused (State.genesis (n + c.evidenceLifetime)) ?_ ((accepts_submit_iff c _).2
      ⟨by simpa using hsig, ?_, le_rfl⟩)
    · exact Nat.add_lt_add_right hn _
    · exact Nat.le_add_right _ _
  · intro h
    have hrefused : ∀ s : State AccountId Public Signature,
        b + c.evidenceLifetime < s.blockNumber →
          ¬ Accepts c s (.submitResultUnsignedWithSignedPayload n p sig) := by
      intro s hs hacc
      obtain ⟨hsig, -, hwin⟩ := (accepts_submit_iff c s).1 hacc
      rcases h with hn | hno
      · omega
      · rw [hsig] at hno
        cases hno
    exact ⟨hrefused, fun s hs => unrecorded_of_refused c s (hrefused s hs)⟩

/-- **Freshness of a report.**  Of every report a worker signs at a block, and every block number
put into the call that carries it: the call is refused at every block past the lifetime, and the
report recorded at none, exactly if the number is not past the block — or the signature no
signature. -/
theorem report_fresh_iff (env : Env AccountId) (isValidator : Bool)
    (hosts : ℕ → Host AccountId Public Signature) (s : State AccountId Public Signature) (b : ℕ) :
    ∀ r ∈ signedReports b (offchainWorker env isValidator hosts s b), ∀ n,
      StaleBehind c b n r.report.payload r.report.signature ↔
        n ≤ b ∨ c.verify r.report.payload r.report.signature = false :=
  fun r _ n => staleBehind_iff c b n r.report.payload r.report.signature

/-! ## A report that outlives its window -/

/-- What the nodes of the examples below share; an account is the length of its encoding. -/
noncomputable def plainEnv : Env ℕ := ⟨decode, fun b => some b.length, Iteration.id _⟩

/-- A host whose service answers that account `ab` runs enclave `c0de`, under one key. -/
def plainHost : Host ℕ ℕ ℕ where
  http := fun _ => .response 200 (utf8 (answerText "ab".toList "c0de".toList "cafe".toList))
  keys := [0]
  sign := fun p => some p.publicKey
  submit := fun _ => .ok ()

/-- The report signed on its answer. -/
def plainReport : RegisterPayload ℕ ℕ := ⟨ascii "c0de", 1, ascii "cafe", 0⟩

/-- An evidence queued at block `1` for block `6`. -/
def queuedState : State ℕ ℕ ℕ := (State.genesis 1).enqueue 6 7 (ascii "quote")

theorem plainReport_signed : ⟨⟨6, 7, ascii "quote"⟩, ⟨plainReport, 0⟩⟩ ∈
    signedReports 6 (offchainWorker plainEnv true (fun _ => plainHost) queuedState 6) := by
  have hread : parseResult decode (answerText "ab".toList "c0de".toList "cafe".toList)
      = some [ascii "cafe", ascii "c0de", ascii "ab"] :=
    parseResult_answerText (fun _ _ => decode_eq_some) (by decide) (by decide) (by decide)
  have hmessage : resolveEvidence plainEnv plainHost (ascii "quote")
      = .ok [ascii "cafe", ascii "c0de", ascii "ab"] :=
    (resolveEvidence_eq_ok _ _).2 ⟨_, _, rfl, fromUtf8_eq_some.2 rfl, hread⟩
  have hqueue : queuedAt plainEnv queuedState 6 = [(7, ascii "quote")] := rfl
  rw [offchainWorker, if_pos rfl, hqueue]
  refine mem_signedReports_attempts plainEnv 6 _ [] ?_
  have hutf : fromUtf8 (ascii "ab") = some "ab".toList := fromUtf8_eq_some.2 (by decide)
  have hhex : decodePairs (ascii "ab") = some [0xab] := by decide
  exact signed_of_message plainEnv plainHost hmessage hutf hhex rfl 7 6

/-- Put into a call for block `1000`, the report is stale behind block `1000` and not behind `6`. -/
theorem plainReport_fresh_iff :
    StaleBehind ⟨5, 600, 2 ^ 20, fun p sig => sig = p.publicKey⟩ 6 1000 plainReport 0 ↔
      1000 ≤ 6 ∨ decide (0 = plainReport.publicKey) = false :=
  report_fresh_iff ⟨5, 600, 2 ^ 20, fun p sig => sig = p.publicKey⟩ plainEnv true
    (fun _ => plainHost) queuedState 6 _ plainReport_signed 1000

/-- A report signed at block `6`, in a call that names block `1000`, passes the gate there. -/
theorem report_not_fresh :
    ¬ ∀ (c : Config ℕ ℕ ℕ) (env : Env ℕ) (isValidator : Bool) (hosts : ℕ → Host ℕ ℕ ℕ)
      (s : State ℕ ℕ ℕ) (b : ℕ), ∀ r ∈ signedReports b (offchainWorker env isValidator hosts s b),
        ∀ n, StaleBehind c b n r.report.payload r.report.signature := by
  intro h
  have hstale := h ⟨5, 600, 2 ^ 20, fun p sig => sig = p.publicKey⟩ plainEnv true
    (fun _ => plainHost) queuedState 6 _ plainReport_signed 1000
  exact hstale.refused (State.genesis 1000) (by decide) (by decide)

end Verifier
