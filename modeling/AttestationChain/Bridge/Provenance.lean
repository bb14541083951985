import AttestationChain.Bridge.Service
import AttestationChain.Verifier.Queue
import AttestationChain.Verifier.Replay

/-!
# Bridge/Provenance — where a recorded report comes from

The chain never sees an enclave: it trusts the registered keys, whose owners trust what the service
answered to an evidence that was queued.  `Traced` follows a report all the way back, and every step
of a world keeps it, as long as a key signs only in worker runs and the service its owner asks is
the one of this repository (`recorded_vouches`).
-/

namespace Bridge

open Dcap Dcap.JSON JsonText Runs Verifier

variable {AccountId Public Signature Double BigNum Key : Type}

/-! ## Worlds whose owner of a key asks this service -/

section Trace

variable [DecidableEq AccountId] [DecidableEq Public] (c : Config AccountId Public Signature)
  (env : Env AccountId) (libs : Set (Libraries Double BigNum Key)) (key : Public)

/-- **The owner of a key asks the service**: so does every host of a worker run that holds it. -/
def OwnerAsks (_w : World AccountId Public Signature) :
    WorldStep AccountId Public Signature → Prop
  | .worker _ hosts => ∀ i, key ∈ (hosts i).keys → AnswersFrom libs (hosts i)
  | .chain _ => True

/-- **Traced to an evidence**: a report was signed for one that was announced for the block it was
signed at, no later than now, and vouches for it. -/
def Traced (s : State AccountId Public Signature) (r : SignedReport AccountId Public Signature) :
    Prop :=
  r.queued.block ≤ s.blockNumber ∧
    (r.queued.applier, r.queued.evidence) ∈ dueAt c s r.queued.block ∧
    Vouches env libs r.queued.evidence r.report.payload

/-- **What is known of a key's reports**: those that were signed are traced, and those that are
recorded were signed. -/
structure Traces (w : World AccountId Public Signature) : Prop where
  queue : QueueHolds c w.chain
  signed : ∀ r ∈ w.signed, r.report.payload.publicKey = key → Traced c env libs w.chain r
  recorded : ∀ who pubkey, ∀ e ∈ w.chain.results who pubkey, e.payload.publicKey = key →
    ∃ r ∈ w.signed, r.report = e

variable {c env libs key}

theorem queueHolds_worldStep (w : World AccountId Public Signature)
    (a : WorldStep AccountId Public Signature) (hw : QueueHolds c w.chain) :
    QueueHolds c (worldStep c env w a).chain := by
  cases a with
  | chain a => exact queueHolds_step c w.chain a hw
  | worker isValidator hosts => exact hw

omit [DecidableEq Public] in
/-- What stands in the queue was announced. -/
theorem mem_dueAt_of_queuedAt {s : State AccountId Public Signature} (hs : QueueHolds c s)
    {block : ℕ} {e : AccountId × Bytes} (h : e ∈ queuedAt env s block) : e ∈ dueAt c s block := by
  obtain ⟨⟨who, e'⟩, hmem, rfl⟩ := List.mem_map.1 h
  rw [(env.iteration.perm _).mem_iff, DoubleMap.mem_prefixEntries, hs] at hmem
  exact (mem_of_lastRequest hmem).1

/-- A step of the chain leaves every block's announcements standing, and no block is undone. -/
theorem Traced.step {s : State AccountId Public Signature}
    {r : SignedReport AccountId Public Signature} (h : Traced c env libs s r)
    (a : Step AccountId Public Signature) : Traced c env libs (step c s a) r := by
  obtain ⟨hblock, hdue, hvouches⟩ := h
  have hgrows : s.blockNumber ≤ (Verifier.step c s a).blockNumber ∧
      dueAt c s r.queued.block ⊆ dueAt c (Verifier.step c s a) r.queued.block := by
    rcases step_cases c s a with ⟨-, h⟩ | h | ⟨who, ev, -, h⟩ | ⟨n, p, sig, -, -, -, h⟩ |
      ⟨k, -, h⟩ <;> rw [h]
    · exact ⟨Nat.le_succ _, List.Subset.refl _⟩
    · exact ⟨le_rfl, List.Subset.refl _⟩
    · refine ⟨le_rfl, ?_⟩
      rw [dueAt_depositEvent]
      exact List.subset_append_left _ _
    · exact ⟨le_rfl, List.Subset.refl _⟩
    · exact ⟨le_rfl, List.Subset.refl _⟩
  exact ⟨hblock.trans hgrows.1, hgrows.2 hdue, hvouches⟩

omit [DecidableEq Public] in
/-- A run of a worker signs what is traced, under a key whose owner asks the service. -/
theorem traced_of_worker (hparse : ∀ s v, env.parseJson s = some v ↔ Text s v)
    {s : State AccountId Public Signature} (hs : QueueHolds c s) {isValidator : Bool}
    {hosts : ℕ → Host AccountId Public Signature}
    (hhosts : ∀ i, key ∈ (hosts i).keys → AnswersFrom libs (hosts i))
    {r : SignedReport AccountId Public Signature}
    (hr : r ∈ signedReports s.blockNumber
      (offchainWorker env isValidator hosts s s.blockNumber))
    (hkey : r.report.payload.publicKey = key) : Traced c env libs s r := by
  rcases isValidator with _ | _
  · cases hr
  obtain ⟨hblock, i, hi, -, hsigned⟩ := (mem_signedReports_iff env s.blockNumber _ hosts).1 hr
  have hkeys : key ∈ (hosts i).keys := hkey ▸ (signed_eq_some hsigned).1
  refine ⟨hblock.le, ?_, vouches_of_signed hparse (hhosts i hkeys) hsigned⟩
  rw [hblock]
  exact mem_dueAt_of_queuedAt hs (List.mem_of_getElem? hi)

/-- **A step keeps the traces.** -/
theorem traces_step (hparse : ∀ s v, env.parseJson s = some v ↔ Text s v)
    (w : World AccountId Public Signature) (a : WorldStep AccountId Public Signature)
    (hw : Traces c env libs key w)
    (ha : OwnerAsks libs key w a ∧ OnSubmit (SignedInWorker key) w a) :
    Traces c env libs key (worldStep c env w a) := by
  obtain ⟨hasks, hsubmit⟩ := ha
  have hqueue : QueueHolds c (worldStep c env w a).chain := queueHolds_worldStep w a hw.queue
  cases a with
  | worker isValidator hosts =>
    refine ⟨hqueue, fun r hr hkey => ?_, fun who pubkey e he hkey => ?_⟩
    · rcases List.mem_append.1 hr with hr | hr
      · exact hw.signed r hr hkey
      · exact traced_of_worker hparse hw.queue hasks hr hkey
    · obtain ⟨r, hr, hre⟩ := hw.recorded who pubkey e he hkey
      exact ⟨r, List.mem_append_left _ hr, hre⟩
  | chain a =>
    refine ⟨hqueue, fun r hr hkey => (hw.signed r hr hkey).step a,
      fun who pubkey e he hkey => ?_⟩
    -- Only a report it includes is new to a list of results.
    rcases worldStep_results c env w (.chain a) with hsame | ⟨n, p, sig, hsub, hrec⟩
    · rw [hsame] at he
      exact hw.recorded who pubkey e he hkey
    · rw [hrec, State.results_record] at he
      split_ifs at he
      · rcases List.mem_append.1 he with he | he
        · exact hw.recorded who pubkey e he hkey
        · obtain rfl := List.mem_singleton.1 he
          exact onSubmit_iff.1 hsubmit n p sig hsub hkey
      · exact hw.recorded who pubkey e he hkey

/-- **Where a recorded report comes from.**  In every world from genesis, of the chain and of any
number of worker runs, in which a key signs only in worker runs and its owner asks the service of
this repository: every report of the key that is recorded, under an account and an enclave's key, is
of a payload that vouches for an evidence some account requested, for a block that is reached.  The
evidence held a quote and a signature that passed the checks of the service, and what is recorded
was read in the answer; where the account in the evidence is a plain text, it names the enclave's
key and measurement in that quote, and the account. -/
theorem recorded_vouches (hparse : ∀ s v, env.parseJson s = some v ↔ Text s v) (n₀ : ℕ)
    (tr : List (WorldStep AccountId Public Signature))
    (hasks : Guarded (worldStep c env) (OwnerAsks libs key) (World.genesis n₀) tr)
    (hsigned : Guarded (worldStep c env) (OnSubmit (SignedInWorker key)) (World.genesis n₀) tr) :
    let w := run (worldStep c env) (World.genesis n₀) tr
    ∀ who pubkey, ∀ e ∈ w.chain.results who pubkey, e.payload.publicKey = key →
      e.payload.who = who ∧ e.payload.pubkey = pubkey ∧
      ∃ block ≤ w.chain.blockNumber, ∃ applier evidence,
        (applier, evidence) ∈ dueAt c w.chain block ∧ Vouches env libs evidence e.payload := by
  intro w who pubkey e he hkey
  have hgenesis : Traces c env libs key
      (World.genesis n₀ : World AccountId Public Signature) := by
    refine ⟨queueHolds_genesis c n₀, fun r hr => absurd hr List.not_mem_nil,
      fun who pubkey e he => ?_⟩
    rw [World.genesis, State.results_genesis] at he
    cases he
  have htraces := invariant_run (traces_step hparse) (hasks.and hsigned) hgenesis
  have hintact : AllIntact c w.chain :=
    invariant_run' (worldStep_allIntact c env) tr (allIntact_genesis c n₀)
  obtain ⟨r, hr, rfl⟩ := htraces.recorded who pubkey e he hkey
  obtain ⟨hblock, hdue, hvouches⟩ := htraces.signed r hr hkey
  exact ⟨(hintact who pubkey _ he).who, (hintact who pubkey _ he).pubkey, _, hblock, _, _, hdue,
    hvouches⟩

end Trace

/-! ## A world with one record -/

/-- A report counts for a block after its request, and for 600 more. -/
def vouchConfig : Config ℕ ℕ ℕ := ⟨1, 600, 2 ^ 20, fun p sig => sig = p.publicKey⟩

/-- A key, an evidence, and the block it is queued for. -/
def requestedRun (evidence : Bytes) : List (WorldStep ℕ ℕ ℕ) :=
  [.chain .newBlock, .chain (.extrinsic .root (.registerNewPubkey 0)),
    .chain (.extrinsic (.signed 7) (.requestVerification evidence)), .chain .newBlock]

/-- Then a run of the worker. -/
def attestedRun (evidence : Bytes) : List (WorldStep ℕ ℕ ℕ) :=
  requestedRun evidence ++ [.worker true fun _ => serviceHost]

/-- What is signed for the evidence, the run signs. -/
theorem signed_attestedRun {evidence : Bytes} {p : RegisterPayload ℕ ℕ} {sig : ℕ}
    (h : (resolveEvidenceAndSendUnsignedForAnyAccount plainEnv serviceHost 7 evidence 2).signed
      = some (p, sig)) : ⟨⟨2, 7, evidence⟩, ⟨p, sig⟩⟩ ∈
        (run (worldStep vouchConfig plainEnv) (World.genesis 0) (attestedRun evidence)).signed := by
  have hqueue : queuedAt plainEnv (run (worldStep vouchConfig plainEnv) (World.genesis 0)
      (requestedRun evidence)).chain 2 = [(7, evidence)] := rfl
  rw [attestedRun, run_concat]
  refine List.mem_append_right _ ((mem_signedReports_iff plainEnv 2 _ _).2 ⟨rfl, 0, ?_,
    fun j hj => absurd hj (Nat.not_lt_zero j), h⟩)
  exact congrArg (·[0]?) hqueue

/-- The report of `plainRequest`. -/
def attestedPayload : RegisterPayload ℕ ℕ := payloadOf (plainIdentity (ascii "ab")) 1 0

theorem attestedPayload_signed :
    (resolveEvidenceAndSendUnsignedForAnyAccount plainEnv serviceHost 7
      (plainRequest (ascii "ab")) 2).signed = some (attestedPayload, 0) :=
  signed_of_attestable (fun _ _ => decode_eq_some) attestable_plainRequest
    (http_serviceHost _) rfl (sign_serviceHost _) 7 2

/-- Then the report is submitted. -/
def vouchedRun (evidence : Bytes) : List (WorldStep ℕ ℕ ℕ) :=
  attestedRun evidence ++
    [.chain (.extrinsic .none (.submitResultUnsignedWithSignedPayload 2 attestedPayload 0))]

theorem results_vouchedRun (evidence : Bytes) :
    (run (worldStep vouchConfig plainEnv) (World.genesis 0) (vouchedRun evidence)).chain.results
      1 attestedPayload.pubkey = [⟨attestedPayload, 0⟩] := by
  rw [vouchedRun, run_concat, worldStep, step,
    submit_eq_record vouchConfig _ 2 (List.mem_singleton_self _) rfl, State.results_record]
  exact if_pos rfl

theorem asks_vouchedRun (evidence : Bytes) : Guarded (worldStep vouchConfig plainEnv)
    (OwnerAsks {plainLibraries 1} 0) (World.genesis 0) (vouchedRun evidence) :=
  ⟨trivial, trivial, trivial, trivial, fun _ _ _ _ _ h => ⟨_, rfl, h⟩, trivial, trivial⟩

/-- It vouches for the evidence. -/
theorem attested_vouches :
    let w := run (worldStep vouchConfig plainEnv) (World.genesis 0)
      (vouchedRun (plainRequest (ascii "ab")))
    attestedPayload.who = 1 ∧ attestedPayload.pubkey = attestedPayload.pubkey ∧
      ∃ block ≤ w.chain.blockNumber, ∃ applier evidence,
        (applier, evidence) ∈ dueAt vouchConfig w.chain block ∧
        Vouches plainEnv {plainLibraries 1} evidence attestedPayload := by
  have hsigned : Guarded (worldStep vouchConfig plainEnv) (OnSubmit (SignedInWorker 0))
      (World.genesis 0) (vouchedRun (plainRequest (ascii "ab"))) :=
    guarded_append.2 ⟨⟨trivial, trivial, trivial, trivial, trivial, trivial⟩,
      fun _ => ⟨_, signed_attestedRun attestedPayload_signed, rfl⟩, trivial⟩
  refine recorded_vouches (fun _ _ => decode_eq_some) 0 _ (asks_vouchedRun _) hsigned 1 _
    ⟨attestedPayload, 0⟩ ?_ rfl
  rw [results_vouchedRun]
  exact List.mem_singleton_self _

end Bridge
