import AttestationChain.Verifier.Isolation

/-!
# Verifier/Reports — what a worker signs, and for which of the evidences

An attempt signs one payload: the identity read in the answer, under a key of the keystore
(`signed_eq_some`).  A run signs what its attempts sign, up to and with the first one that panics
(`mem_signedReports_iff`).
-/

namespace Verifier

variable {AccountId Public Signature : Type}

/-- **What is sent**: a payload of the first key that signs its own. -/
theorem sendUnsignedTransaction_eq_some {host : Host AccountId Public Signature}
    {f : Public → RegisterPayload Public AccountId}
    {f2 : RegisterPayload Public AccountId → Signature → Call AccountId Public Signature}
    {pair : RegisterPayload Public AccountId × Signature} {result : Except Unit Unit}
    (h : sendUnsignedTransaction host f f2 = some (pair, result)) :
    ∃ public_ ∈ host.keys, pair.1 = f public_ ∧ host.sign (f public_) = some pair.2 := by
  obtain ⟨public_, hmem, hsent⟩ := List.exists_of_findSome?_eq_some h
  obtain ⟨signature, hsign, heq⟩ := Option.map_eq_some_iff.1 hsent
  cases heq
  exact ⟨public_, hmem, rfl, hsign⟩

/-- **What an attempt signs**: the identity in an answer of status 200, its account decoded, under a
key of the keystore. -/
theorem signed_eq_some {env : Env AccountId} {host : Host AccountId Public Signature}
    {applier : AccountId} {evidence : Bytes} {n : ℕ} {p : RegisterPayload Public AccountId}
    {sig : Signature}
    (h : (resolveEvidenceAndSendUnsignedForAnyAccount env host applier evidence n).signed
      = some (p, sig)) :
    p.publicKey ∈ host.keys ∧ host.sign p = some sig ∧
      ∃ body t account accountId, host.http evidence = .response 200 body ∧
        fromUtf8 body = some t ∧ parseResult env.parseJson t = some [p.pubkey, p.code, account] ∧
        decodeHex account = .ok (.ok accountId) ∧ env.decodeAccountId accountId = some p.who := by
  rw [resolveEvidenceAndSendUnsignedForAnyAccount] at h
  rcases hres : resolveEvidence env host evidence with e | m <;> rw [hres] at h
  · cases h
  obtain ⟨body, t, hhttp, ht, hm⟩ := (resolveEvidence_eq_ok env host).1 hres
  obtain ⟨_, _, pubkey, mrenclave, account, -, -, -, -, -, rfl⟩ := parseResult_eq_some.1 hm
  dsimp only at h
  split at h
  · cases h
  split at h
  · cases h
  · cases h
  rename_i accountId hhex
  split at h
  · cases h
  rename_i who hwho
  -- Whatever submitting returns, the pair is the one that was signed.
  have hsent : ∀ pair result, sendUnsignedTransaction host
      (fun public_ => { pubkey := pubkey, code := mrenclave, who := who, publicKey := public_ })
      (fun payload signature => .submitResultUnsignedWithSignedPayload n payload signature)
        = some (pair, result) → pair = (p, sig) →
      p.publicKey ∈ host.keys ∧ host.sign p = some sig ∧ p.pubkey = pubkey ∧
        p.code = mrenclave ∧ p.who = who := by
    rintro pair result hpair rfl
    obtain ⟨public_, hmem, hp, hsign⟩ := sendUnsignedTransaction_eq_some hpair
    obtain rfl : p = _ := hp
    exact ⟨hmem, hsign, rfl, rfl, rfl⟩
  obtain ⟨hmem, hsign, rfl, rfl, rfl⟩ : p.publicKey ∈ host.keys ∧ host.sign p = some sig ∧
      p.pubkey = pubkey ∧ p.code = mrenclave ∧ p.who = who := by
    split at h
    · cases h
    · exact hsent _ _ ‹_› (Option.some.inj h)
    · exact hsent _ _ ‹_› (Option.some.inj h)
  exact ⟨hmem, hsign, body, t, account, accountId, hhttp, ht, hm, hhex, hwho⟩

/-- A run goes on behind an answer the worker survives… -/
theorem attempts_of_survivable {env : Env AccountId} {block : ℕ}
    {hosts : ℕ → Host AccountId Public Signature} {who : AccountId} {evidence : Bytes}
    (queue : List (AccountId × Bytes)) (h : Survivable env ((hosts 0).http evidence)) :
    attempts env block hosts ((who, evidence) :: queue) =
      ⟨who, evidence,
        resolveEvidenceAndSendUnsignedForAnyAccount env (hosts 0) who evidence block⟩ ::
        attempts env block (fun i => hosts (i + 1)) queue := by
  obtain ⟨r, hr⟩ := (returns_iff env (hosts 0) who evidence block).2 h
  simp only [attempts, hr]

/-- …and ends with one that stops it. -/
theorem attempts_of_not_survivable {env : Env AccountId} {block : ℕ}
    {hosts : ℕ → Host AccountId Public Signature} {who : AccountId} {evidence : Bytes}
    (queue : List (AccountId × Bytes)) (h : ¬ Survivable env ((hosts 0).http evidence)) :
    attempts env block hosts ((who, evidence) :: queue) =
      [⟨who, evidence,
        resolveEvidenceAndSendUnsignedForAnyAccount env (hosts 0) who evidence block⟩] := by
  rw [attempts]
  split
  · rfl
  · rename_i r hr
    exact absurd ((returns_iff env (hosts 0) who evidence block).1 ⟨r, hr⟩) h

/-- The report of one attempt. -/
theorem mem_signedReports_cons {block : ℕ} {r : SignedReport AccountId Public Signature}
    {a : Attempt AccountId Public Signature} {run : List (Attempt AccountId Public Signature)} :
    r ∈ signedReports block (a :: run) ↔
      (r.queued = ⟨block, a.applier, a.evidence⟩ ∧
        a.outcome.signed = some (r.report.payload, r.report.signature)) ∨
      r ∈ signedReports block run := by
  simp only [signedReports, List.mem_filterMap, List.mem_cons, or_and_right, exists_or,
    exists_eq_left]
  refine or_congr_left ⟨fun h => ?_, fun ⟨hqueued, hsigned⟩ => ?_⟩
  · obtain ⟨pair, hsigned, rfl⟩ := Option.map_eq_some_iff.1 h
    exact ⟨rfl, hsigned⟩
  · rw [hsigned, ← hqueued]
    rfl

/-- **What a run signs**: what its attempts sign, each for its entry of the queue, until one of them
meets an answer that stops the worker. -/
theorem mem_signedReports_iff (env : Env AccountId) (block : ℕ)
    {r : SignedReport AccountId Public Signature} (queue : List (AccountId × Bytes)) :
    ∀ hosts : ℕ → Host AccountId Public Signature,
      r ∈ signedReports block (attempts env block hosts queue) ↔ r.queued.block = block ∧
        ∃ i, queue[i]? = some (r.queued.applier, r.queued.evidence) ∧
          (∀ j < i, ∀ e, queue[j]? = some e → Survivable env ((hosts j).http e.2)) ∧
          (resolveEvidenceAndSendUnsignedForAnyAccount env (hosts i) r.queued.applier
            r.queued.evidence block).signed = some (r.report.payload, r.report.signature) := by
  induction queue with
  | nil => simp [attempts, signedReports]
  | cons e queue ih =>
    obtain ⟨who, evidence⟩ := e
    intro hosts
    have hhead : (r.queued = ⟨block, who, evidence⟩ ∧
        (resolveEvidenceAndSendUnsignedForAnyAccount env (hosts 0) who evidence block).signed
          = some (r.report.payload, r.report.signature)) ↔ r.queued.block = block ∧
        (who, evidence) = (r.queued.applier, r.queued.evidence) ∧
        (resolveEvidenceAndSendUnsignedForAnyAccount env (hosts 0) r.queued.applier
          r.queued.evidence block).signed = some (r.report.payload, r.report.signature) := by
      constructor
      · rintro ⟨hqueued, hsigned⟩
        rw [hqueued]
        exact ⟨rfl, rfl, hsigned⟩
      · rintro ⟨rfl, heq, hsigned⟩
        obtain ⟨rfl, rfl⟩ := Prod.mk.inj heq
        exact ⟨rfl, hsigned⟩
    by_cases hsurv : Survivable env ((hosts 0).http evidence)
    · rw [attempts_of_survivable queue hsurv, mem_signedReports_cons, hhead, ih]
      constructor
      · rintro (⟨hblock, heq, hsigned⟩ | ⟨hblock, i, hi, hbefore, hsigned⟩)
        · exact ⟨hblock, 0, congrArg some heq, fun j hj => absurd hj (Nat.not_lt_zero j), hsigned⟩
        · refine ⟨hblock, i + 1, hi, fun j hj e he => ?_, hsigned⟩
          rcases j with _ | j
          · obtain rfl := Option.some.inj he
            exact hsurv
          · exact hbefore j (Nat.lt_of_succ_lt_succ hj) e he
      · rintro ⟨hblock, i, hi, hbefore, hsigned⟩
        rcases i with _ | i
        · exact .inl ⟨hblock, Option.some.inj hi, hsigned⟩
        · exact .inr ⟨hblock, i, hi, fun j hj e he => hbefore (j + 1) (Nat.succ_lt_succ hj) e he,
            hsigned⟩
    · rw [attempts_of_not_survivable queue hsurv, mem_signedReports_cons, hhead]
      constructor
      · rintro (⟨hblock, heq, hsigned⟩ | hnone)
        · exact ⟨hblock, 0, congrArg some heq, fun j hj => absurd hj (Nat.not_lt_zero j), hsigned⟩
        · cases hnone
      · rintro ⟨hblock, i, hi, hbefore, hsigned⟩
        rcases i with _ | i
        · exact .inl ⟨hblock, Option.some.inj hi, hsigned⟩
        · exact absurd (hbefore 0 (Nat.succ_pos i) _ rfl) hsurv

end Verifier
