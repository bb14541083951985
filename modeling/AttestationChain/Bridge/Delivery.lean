import AttestationChain.Bridge.Provenance

/-!
# Bridge/Delivery — how a request gets recorded

From the request to the record there are four hands: the queue, the worker of a node, the service it
asks, and the gate of the chain.  `Attestable` is what the evidence has to be and `Delivers` what
the node has to be; then a worker run at the block the evidence is due signs a report of it, the
gate lets the report in until the lifetime is over, and it is recorded for good
(`request_recorded`).
-/

namespace Bridge

open Dcap Dcap.JSON JsonText Runs Verifier

variable {AccountId Public Signature Double BigNum Key : Type}

/-! ## Through the queue, the worker and the gate -/

section Deliver

variable [DecidableEq AccountId] [DecidableEq Public] (c : Config AccountId Public Signature)
  (env : Env AccountId)

/-- **A node that delivers** an applier's evidence out of the queue of the block under way, signed
by a key: no answer to an entry in front of it stops its worker, the service answers it, its first
key is that one, and signs what verifies. -/
structure Delivers (lib : Libraries Double BigNum Key) (s : State AccountId Public Signature)
    (hosts : ℕ → Host AccountId Public Signature) (applier : AccountId) (evidence : Bytes)
    (k : Public) : Prop where
  survives : ∀ j, (queuedAt env s s.blockNumber)[j]? = some (applier, evidence) →
    ∀ j' < j, ∀ e, (queuedAt env s s.blockNumber)[j']? = some e →
      Survivable env ((hosts j').http e.2)
  reaches : ∀ j, (hosts j).http evidence = serviceHttp lib evidence
  first : ∀ j, ∃ keys, (hosts j).keys = k :: keys
  signs : ∀ j p, p.publicKey = k → ∃ sig, (hosts j).sign p = some sig ∧ c.verify p sig = true

variable {c env}

omit [DecidableEq Public] in
/-- The last request of an account for a block stands in its queue. -/
theorem mem_queuedAt_of_lastRequest {s : State AccountId Public Signature} (hs : QueueHolds c s)
    {block : ℕ} {applier : AccountId} {evidence : Bytes}
    (h : lastRequest (dueAt c s block) applier = some (applier, evidence)) :
    (applier, evidence) ∈ queuedAt env s block := by
  refine List.mem_map.2 ⟨(applier, applier, evidence), ?_, rfl⟩
  rw [(env.iteration.perm _).mem_iff, DoubleMap.mem_prefixEntries, hs, h]

/-- No step goes back a block. -/
theorem blockNumber_le_worldStep (w : World AccountId Public Signature)
    (a : WorldStep AccountId Public Signature) :
    w.chain.blockNumber ≤ (worldStep c env w a).chain.blockNumber := by
  cases a with
  | worker isValidator hosts => exact le_rfl
  | chain a =>
    rcases step_cases c w.chain a with ⟨-, h⟩ | h | ⟨who, ev, -, h⟩ | ⟨n, p, sig, -, -, -, h⟩ |
      ⟨k, -, h⟩ <;> rw [worldStep, h]
    · exact Nat.le_succ _
    all_goals exact le_rfl

/-- Whatever happens, a world's chain only grows. -/
theorem extends_worldStep (w : World AccountId Public Signature)
    (a : WorldStep AccountId Public Signature) :
    Extends w.chain (worldStep c env w a).chain := by
  cases a with
  | chain a => exact extends_step c w.chain a
  | worker isValidator hosts => exact Extends.refl _

/-- **A report within its window is recorded**, under a registered key, and stays. -/
theorem recorded_of_window (w : World AccountId Public Signature) {b : ℕ}
    {p : RegisterPayload Public AccountId} {sig : Signature} (hb : b ≤ w.chain.blockNumber)
    (hwindow : w.chain.blockNumber ≤ b + c.evidenceLifetime)
    (hkey : ⟨p.publicKey⟩ ∈ w.chain.publicKeys) (hsig : c.verify p sig = true) :
    let submit : WorldStep AccountId Public Signature :=
      .chain (.extrinsic .none (.submitResultUnsignedWithSignedPayload b p sig))
    WorldIncluded c w submit ∧
      ∀ suf, ⟨p, sig⟩ ∈ (run (worldStep c env) w (submit :: suf)).chain.results p.who p.pubkey := by
  intro submit
  refine ⟨(accepts_submit_iff c _).2 ⟨hsig, hb, hwindow⟩, fun suf => ?_⟩
  have hstep : (worldStep c env w submit).chain = w.chain.record p sig := by
    rw [worldStep, step, submit_eq_record c _ b hkey hsig]
  have hextends : Extends (worldStep c env w submit).chain
      (run (worldStep c env) w (submit :: suf)).chain :=
    rel_run (R := fun w w' : World AccountId Public Signature => Extends w.chain w'.chain)
      (fun w => Extends.refl _) (fun h h' => h.trans h') extends_worldStep _ suf
  refine (hextends.results _ _).subset ?_
  rw [hstep, State.results_record, if_pos rfl]
  simp

/-- **A request gets recorded.**  Where an account's request is the last it made for a block, the
chain is at that block, and the evidence can be attested: a run of the worker of a node that
delivers signs a report of it; and from then on, as long as the lifetime is not over and the node's
key is registered, the gate lets the report in, and once in it is recorded for good, under the
account the evidence names and the key in its quote. -/
theorem request_recorded (hparse : ∀ s v, env.parseJson s = some v ↔ Text s v) (n₀ : ℕ)
    (pre : List (WorldStep AccountId Public Signature)) {applier who : AccountId}
    {evidence : Bytes} {lib : Libraries Double BigNum Key} {i : Identity}
    (hev : Attestable env lib evidence i who) {hosts : ℕ → Host AccountId Public Signature}
    {k : Public} :
    let w := run (worldStep c env) (World.genesis n₀) pre
    let block := w.chain.blockNumber
    lastRequest (dueAt c w.chain block) applier = some (applier, evidence) →
    Delivers c env lib w.chain hosts applier evidence k →
    ∃ sig, c.verify (payloadOf i who k) sig = true ∧
      ⟨⟨block, applier, evidence⟩, ⟨payloadOf i who k, sig⟩⟩ ∈
        (worldStep c env w (.worker true hosts)).signed ∧
      ∀ mid, let w' := run (worldStep c env) w (.worker true hosts :: mid)
        w'.chain.blockNumber ≤ block + c.evidenceLifetime → ⟨k⟩ ∈ w'.chain.publicKeys →
        let submit := .chain (.extrinsic .none
          (.submitResultUnsignedWithSignedPayload block (payloadOf i who k) sig))
        WorldIncluded c w' submit ∧ ∀ suf, ⟨payloadOf i who k, sig⟩ ∈
          (run (worldStep c env) w' (submit :: suf)).chain.results who
            (hexstring i.reportData) := by
  intro w block hlast hnode
  have hqueue : QueueHolds c w.chain := invariant_run' queueHolds_worldStep pre
    (queueHolds_genesis c n₀)
  have hqueued : (applier, evidence) ∈ queuedAt env w.chain block :=
    mem_queuedAt_of_lastRequest hqueue hlast
  obtain ⟨j, hj⟩ := List.mem_iff_getElem?.1 hqueued
  obtain ⟨keys, hkeys⟩ := hnode.first j
  obtain ⟨sig, hsign, hverify⟩ := hnode.signs j (payloadOf i who k) rfl
  refine ⟨sig, hverify, ?_, fun mid => ?_⟩
  · refine List.mem_append_right _ ((mem_signedReports_iff env block _ hosts).2 ⟨rfl, j, hj,
      hnode.survives j hj, ?_⟩)
    exact signed_of_attestable hparse hev (hnode.reaches j) hkeys hsign applier block
  · intro w' hwindow hkey
    have hlate : block ≤ w'.chain.blockNumber :=
      rel_run (R := fun w w' : World AccountId Public Signature =>
        w.chain.blockNumber ≤ w'.chain.blockNumber) (fun w => le_rfl) (fun h h' => h.trans h')
        blockNumber_le_worldStep w _
    exact recorded_of_window w' hlate hwindow hkey hverify

end Deliver

/-! ## A world with two requests -/

/-- A key, an evidence, and the block two accounts queue it for. -/
def twiceRequestedRun (evidence : Bytes) : List (WorldStep ℕ ℕ ℕ) :=
  [.chain .newBlock, .chain (.extrinsic .root (.registerNewPubkey 0)),
    .chain (.extrinsic (.signed 5) (.requestVerification evidence)),
    .chain (.extrinsic (.signed 7) (.requestVerification evidence)), .chain .newBlock]

/-- At that block its queue holds nothing else. -/
theorem mem_twiceRequested {evidence : Bytes} {j : ℕ} {e : ℕ × Bytes}
    (h : (queuedAt plainEnv (run (worldStep vouchConfig plainEnv) (World.genesis 0)
      (twiceRequestedRun evidence)).chain 2)[j]? = some e) : e.2 = evidence := by
  have hqueue : queuedAt plainEnv (run (worldStep vouchConfig plainEnv) (World.genesis 0)
      (twiceRequestedRun evidence)).chain 2 = [(7, evidence), (5, evidence)] := rfl
  have hmem : e ∈ [(7, evidence), (5, evidence)] := hqueue ▸ List.mem_of_getElem? h
  rcases List.mem_cons.1 hmem with rfl | hmem
  · rfl
  · rw [List.mem_singleton.1 hmem]

theorem delivers_serviceHost {evidence : Bytes}
    (hsurv : Survivable plainEnv (serviceHost.http evidence)) :
    Delivers vouchConfig plainEnv (plainLibraries 1)
      (run (worldStep vouchConfig plainEnv) (World.genesis 0) (twiceRequestedRun evidence)).chain
      (fun _ => serviceHost) 5 evidence 0 := by
  refine ⟨fun j _ j' _ e he => ?_, fun _ => rfl, fun _ => ⟨[], rfl⟩, fun _ p hp => ⟨_, rfl, ?_⟩⟩
  · rw [mem_twiceRequested he]
    exact hsurv
  · exact decide_eq_true rfl

theorem lastRequest_twiceRequested (evidence : Bytes) :
    let s := (run (worldStep vouchConfig plainEnv) (World.genesis 0)
      (twiceRequestedRun evidence)).chain
    lastRequest (dueAt vouchConfig s s.blockNumber) 5 = some (5, evidence) := rfl

/-- The evidence of account `ab` is recorded, behind another request for it. -/
theorem plain_request_recorded :
    let w := run (worldStep vouchConfig plainEnv) (World.genesis 0)
      (twiceRequestedRun (plainRequest (ascii "ab")) ++ [.worker true fun _ => serviceHost])
    ∃ sig, ⟨⟨2, 5, plainRequest (ascii "ab")⟩, ⟨attestedPayload, sig⟩⟩ ∈ w.signed ∧
      ⟨attestedPayload, sig⟩ ∈ (run (worldStep vouchConfig plainEnv) w
        [.chain (.extrinsic .none
          (.submitResultUnsignedWithSignedPayload 2 attestedPayload sig))]).chain.results 1
            (hexstring (plainIdentity (ascii "ab")).reportData) := by
  have hdelivers := delivers_serviceHost
    (attestable_plainRequest.survivable (fun _ _ => decode_eq_some) (http_serviceHost _))
  obtain ⟨sig, -, hsigned, hrecorded⟩ := request_recorded (fun _ _ => decode_eq_some) 0 _
    attestable_plainRequest (lastRequest_twiceRequested _) hdelivers
  exact ⟨sig, hsigned, (hrecorded [] (by decide) (List.mem_singleton_self _)).2 []⟩

end Bridge
