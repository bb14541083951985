import AttestationChain.Verifier.Worker

/-!
# Verifier/Isolation — when one entry of the queue cannot take the next ones down

An attempt ends in a panic in one way: the service answered with an account text that is text, and
is not hexadecimal (`result_isOk_iff`).  A run attempts the whole queue exactly if no entry meets
such an answer (`worker_isolated_iff`) — otherwise the first one that does is the last attempted.
-/

namespace Verifier

open JsonText

variable {AccountId Public Signature : Type}

/-- **An answer the worker survives**: where a message can be read out of it, with an account that
is UTF-8, that account is hexadecimal. -/
def Survivable (env : Env AccountId) (o : HttpOutcome) : Prop :=
  ∀ body t pubkey mrenclave account, o = .response 200 body → fromUtf8 body = some t →
    parseResult env.parseJson t = some [pubkey, mrenclave, account] →
    (fromUtf8 account).isSome → HexText account

/-- An attempt returns: with `Ok` or with `Err`, and not by a panic. -/
def Outcome.Returns (o : Outcome AccountId Public Signature) : Prop := ∃ r, o.result = .ok r

/-- **An attempt returns exactly on the answers it survives.** -/
theorem returns_iff (env : Env AccountId) (host : Host AccountId Public Signature)
    (who : AccountId) (evidence : Bytes) (n : ℕ) :
    (resolveEvidenceAndSendUnsignedForAnyAccount env host who evidence n).Returns ↔
      Survivable env (host.http evidence) := by
  constructor
  · rintro ⟨r, hr⟩ body t pubkey mrenclave account hhttp ht hm hutf
    have hres := (resolveEvidence_eq_ok env host).2 ⟨body, t, hhttp, ht, hm⟩
    obtain ⟨cs, hcs⟩ := Option.isSome_iff_exists.1 hutf
    refine exists_decodeHex_iff.1 ?_
    rcases hdec : decodeHex account with panic | e | bs
    · simp [resolveEvidenceAndSendUnsignedForAnyAccount, hres, hcs, hdec] at hr
    · simp [resolveEvidenceAndSendUnsignedForAnyAccount, hres, hcs, hdec] at hr
    · exact ⟨bs, rfl⟩
  · intro hsurv
    rw [Outcome.Returns, resolveEvidenceAndSendUnsignedForAnyAccount]
    rcases hres : resolveEvidence env host evidence with e | m
    · exact ⟨_, rfl⟩
    obtain ⟨body, t, hhttp, ht, hm⟩ := (resolveEvidence_eq_ok env host).1 hres
    obtain ⟨_, _, pubkey, mrenclave, account, -, -, -, -, -, rfl⟩ := parseResult_eq_some.1 hm
    dsimp only
    split
    · exact ⟨_, rfl⟩
    · rename_i hcs
      obtain ⟨bs, hbs⟩ := exists_decodeHex_iff.2 (hsurv body t _ _ _ hhttp ht hm (by simp [hcs]))
      rw [hbs]
      dsimp only
      split
      · exact ⟨_, rfl⟩
      · split <;> exact ⟨_, rfl⟩

/-- **A run is isolated**: it attempts the whole queue in order, and every attempt returns. -/
structure Isolated (queue : List (AccountId × Bytes))
    (run : List (Attempt AccountId Public Signature)) : Prop where
  attempted : run.map (fun a => (a.applier, a.evidence)) = queue
  returns : ∀ a ∈ run, a.outcome.Returns

theorem isolated_nil : Isolated ([] : List (AccountId × Bytes))
    ([] : List (Attempt AccountId Public Signature)) := ⟨rfl, by simp⟩

theorem isolated_cons {who : AccountId} {evidence : Bytes} {queue : List (AccountId × Bytes)}
    {o : Outcome AccountId Public Signature} {run : List (Attempt AccountId Public Signature)} :
    Isolated ((who, evidence) :: queue) (⟨who, evidence, o⟩ :: run) ↔
      o.Returns ∧ Isolated queue run := by
  constructor
  · rintro ⟨hmap, hret⟩
    exact ⟨hret ⟨who, evidence, o⟩ (by simp), (List.cons.inj hmap).2,
      fun a ha => hret a (by simp [ha])⟩
  · rintro ⟨ho, hmap, hret⟩
    refine ⟨by simp [hmap], fun a ha => ?_⟩
    rcases List.mem_cons.1 ha with rfl | ha
    · exact ho
    · exact hret a ha

/-- **The attempts on a queue are isolated exactly if each meets an answer it survives**: the first
that does not ends the run. -/
theorem attempts_isolated_iff (env : Env AccountId) (n : ℕ) (queue : List (AccountId × Bytes))
    (hosts : ℕ → Host AccountId Public Signature) :
    Isolated queue (attempts env n hosts queue) ↔
      ∀ i e, queue[i]? = some e → Survivable env ((hosts i).http e.2) := by
  induction queue generalizing hosts with
  | nil => simpa [attempts] using isolated_nil
  | cons e queue ih =>
    obtain ⟨who, evidence⟩ := e
    have hhead := returns_iff env (hosts 0) who evidence n
    rw [attempts]
    constructor
    · intro h i e hi
      split at h
      · rename_i hpanic
        obtain ⟨r, hr⟩ := (isolated_cons.1 h).1
        rw [hpanic] at hr
        cases hr
      · obtain ⟨hret, hrest⟩ := isolated_cons.1 h
        cases i with
        | zero => exact Option.some.inj hi ▸ hhead.1 hret
        | succ i => exact (ih _).1 hrest i e hi
    · intro h
      obtain ⟨r, hr⟩ := hhead.2 (h 0 _ rfl)
      rw [hr]
      exact isolated_cons.2 ⟨⟨r, hr⟩, (ih _).2 fun i e hi => h (i + 1) e hi⟩

/-- **Isolation between queued evidences.**  Whatever is queued for a block and whatever the service
answers, a validator's run attempts the whole queue, and no attempt panics, exactly if every answer
is one the worker survives. -/
theorem worker_isolated_iff [DecidableEq AccountId] (env : Env AccountId)
    (hosts : ℕ → Host AccountId Public Signature) (s : State AccountId Public Signature) (n : ℕ) :
    Isolated (queuedAt env s n) (offchainWorker env true hosts s n) ↔
      ∀ i e, (queuedAt env s n)[i]? = some e → Survivable env ((hosts i).http e.2) := by
  rw [offchainWorker, if_pos rfl]
  exact attempts_isolated_iff env n _ hosts

/-- An account text of three digits stops the worker: of two evidences queued for block `6`, the
one attempted first is answered with it. -/
theorem worker_not_isolated :
    ¬ ∀ (env : Env ℕ) (hosts : ℕ → Host ℕ ℕ ℕ) (s : State ℕ ℕ ℕ) (n : ℕ),
      Isolated (queuedAt env s n) (offchainWorker env true hosts s n) := by
  intro h
  let account := "abc".toList
  let body := utf8 (answerText account [] [])
  let env : Env ℕ := ⟨decode, fun b => some b.length, Iteration.id _⟩
  have hrun := h env (fun _ => ⟨fun _ => .response 200 body, [0], fun _ => some 0, fun _ => .ok ()⟩)
    (((State.genesis 1).enqueue 6 0 (ascii "quote")).enqueue 6 1 (ascii "quote")) 6
  have hread : parseResult decode (answerText account [] [])
      = some [charBytes [], charBytes [], charBytes account] :=
    parseResult_answerText (fun _ _ => decode_eq_some) (by decide) (by decide) (by decide)
  rw [offchainWorker, if_pos rfl] at hrun
  have hhex := (attempts_isolated_iff _ _ _ _).1 hrun 0 (1, ascii "quote") (by decide) body
    (answerText account [] []) _ _ _ rfl (fromUtf8_eq_some.2 rfl) hread (by decide)
  simp [account, charBytes, HexText] at hhex

end Verifier
