import AttestationChain.Verifier.Isolation
import AttestationChain.Verifier.Validity
import Mathlib.Data.List.Dedup

/-!
# Verifier/Queue — what became of a request, `VerifyDelay` blocks later

The queue holds, for a block, at most one evidence an account: a second request in the same block
replaces the first.  `queueHolds_step` says so as an invariant — under each block stands the *last*
request each account announced for it (`dueAt`) — and `worker_hands_iff` reads off it when a
worker's run hands the service exactly the evidences announced.  Over a run of blocks that is a
condition on the requests of each block (`requests_handed_iff`).
-/

namespace Verifier

open Runs

variable {AccountId Public Signature : Type}

/-! ## Announced and queued -/

/-- The evidences announced for a block: those of the events deposited `VerifyDelay` blocks before
it, in order. -/
def dueAt (c : Config AccountId Public Signature) (s : State AccountId Public Signature)
    (block : ℕ) : List (AccountId × Bytes) :=
  s.events.filterMap fun e =>
    match e.2 with
    | .requestVerification who evidence =>
      if e.1 + c.verifyDelay = block then some (who, evidence) else none

/-- An event is due at one block. -/
theorem dueAt_depositEvent (c : Config AccountId Public Signature)
    (s : State AccountId Public Signature) (who : AccountId) (evidence : Bytes) (block : ℕ) :
    dueAt c (s.depositEvent (.requestVerification who evidence)) block
      = dueAt c s block ++
        if s.blockNumber + c.verifyDelay = block then [(who, evidence)] else [] := by
  rw [dueAt, State.depositEvent, List.filterMap_append, ← dueAt]
  split_ifs with h <;> simp [h]

variable [DecidableEq AccountId]

/-- The last request an account made. -/
def lastRequest (rs : List (AccountId × Bytes)) (who : AccountId) : Option (AccountId × Bytes) :=
  (rs.filter fun r => r.1 = who).getLast?

theorem lastRequest_concat (rs : List (AccountId × Bytes)) (r : AccountId × Bytes)
    (who : AccountId) :
    lastRequest (rs ++ [r]) who = if r.1 = who then some r else lastRequest rs who := by
  rw [lastRequest, List.filter_append, List.getLast?_append]
  split_ifs with h <;> simp [lastRequest, h]

/-- The last request of an account is one of its requests. -/
theorem mem_of_lastRequest {rs : List (AccountId × Bytes)} {who : AccountId}
    {r : AccountId × Bytes} (h : lastRequest rs who = some r) : r ∈ rs ∧ r.1 = who := by
  simpa using List.mem_of_getLast? h

theorem isSome_lastRequest {rs : List (AccountId × Bytes)} {who : AccountId} :
    (lastRequest rs who).isSome ↔ who ∈ rs.map Prod.fst := by
  simp [lastRequest]

/-- Where no account requests twice, its last request is its only one. -/
theorem lastRequest_eq_some_iff {rs : List (AccountId × Bytes)} (h : (rs.map Prod.fst).Nodup)
    {who : AccountId} {r : AccountId × Bytes} :
    lastRequest rs who = some r ↔ r ∈ rs ∧ r.1 = who := by
  refine ⟨mem_of_lastRequest, fun ⟨hr, hwho⟩ => ?_⟩
  obtain ⟨r', hr'⟩ := Option.isSome_iff_exists.1
    (isSome_lastRequest.2 (List.mem_map.2 ⟨r, hr, hwho⟩))
  obtain ⟨hmem, hwho'⟩ := mem_of_lastRequest hr'
  rw [hr', List.inj_on_of_nodup_map h hmem hr (hwho'.trans hwho.symm)]

variable [DecidableEq Public] (c : Config AccountId Public Signature)

/-- **The queue, read off the events**: under a block and an account stands the last request the
account announced for the block. -/
def QueueHolds (s : State AccountId Public Signature) : Prop :=
  ∀ block who, s.waitingQueue.lookup (block, who) = lastRequest (dueAt c s block) who

omit [DecidableEq Public] in
theorem queueHolds_genesis (n : ℕ) :
    QueueHolds c (State.genesis n : State AccountId Public Signature) := fun _ _ => rfl

/-- **A step keeps the queue in line with the events.** -/
theorem queueHolds_step (s : State AccountId Public Signature)
    (a : Step AccountId Public Signature) (hs : QueueHolds c s) : QueueHolds c (step c s a) := by
  intro block who
  rcases step_cases c s a with ⟨-, h⟩ | h | ⟨w, ev, -, h⟩ | ⟨n, p, sig, -, -, -, h⟩ | ⟨k, -, h⟩ <;>
    rw [h]
  · exact hs block who
  · exact hs block who
  · have hdue : dueAt c ((s.enqueue (s.blockNumber + c.verifyDelay) w ev).depositEvent
        (.requestVerification w ev)) block = dueAt c s block ++
          if s.blockNumber + c.verifyDelay = block then [(w, ev)] else [] :=
      dueAt_depositEvent c _ w ev block
    rw [hdue]
    change (AList.insert _ _ _).lookup (block, who) = _
    by_cases hkey : (block, who) = (s.blockNumber + c.verifyDelay, w)
    · obtain ⟨rfl, rfl⟩ := Prod.mk.inj hkey
      rw [AList.lookup_insert, if_pos rfl, lastRequest_concat, if_pos rfl]
    · rw [AList.lookup_insert_ne hkey, hs]
      split_ifs with hblock
      · rw [lastRequest_concat, if_neg fun hw => hkey (Prod.ext hblock.symm hw.symm)]
      · rw [List.append_nil]
  · exact hs block who
  · exact hs block who

/-! ## What a run hands to the service -/

/-- The evidences a run handed to `resolve_evidence`, in order. -/
def handed (run : List (Attempt AccountId Public Signature)) : List Bytes :=
  run.map Attempt.evidence

variable {c} in
omit [DecidableEq Public] in
/-- One entry an account stands in the queue… -/
theorem queuedAt_keys_perm {s : State AccountId Public Signature} (hs : QueueHolds c s)
    (env : Env AccountId) (block : ℕ) :
    ((queuedAt env s block).map Prod.fst).Perm ((dueAt c s block).map Prod.fst).dedup := by
  have hwho : ∀ e ∈ s.waitingQueue.prefixEntries block, e.2.1 = e.1 := by
    intro e he
    exact (mem_of_lastRequest ((hs block e.1).symm.trans (DoubleMap.mem_prefixEntries.1 he))).2
  have hkeys : (queuedAt env s block).map Prod.fst
      = (env.iteration.order (s.waitingQueue.prefixEntries block)).map Prod.fst := by
    rw [queuedAt, List.map_map]
    exact List.map_congr_left fun e he => hwho e ((env.iteration.perm _).mem_iff.1 he)
  rw [hkeys]
  refine ((env.iteration.perm _).map Prod.fst).trans ?_
  refine (List.perm_ext_iff_of_nodup (DoubleMap.prefixEntries_keys_nodup _ _)
    (List.nodup_dedup _)).2 fun who => ?_
  rw [DoubleMap.mem_prefixEntries_keys, hs, isSome_lastRequest, List.mem_dedup]

variable {c} in
omit [DecidableEq Public] in
/-- …which is all that was announced, where no account requested twice. -/
theorem queuedAt_perm {s : State AccountId Public Signature} (hs : QueueHolds c s)
    (env : Env AccountId) {block : ℕ} (hnodup : ((dueAt c s block).map Prod.fst).Nodup) :
    (queuedAt env s block).Perm (dueAt c s block) := by
  have hkeys : ((queuedAt env s block).map Prod.fst).Nodup :=
    (queuedAt_keys_perm hs env block).nodup_iff.2 (List.nodup_dedup _)
  refine (List.perm_ext_iff_of_nodup (hkeys.of_map _) (hnodup.of_map _)).2 fun r => ?_
  have hmem : r ∈ queuedAt env s block ↔ ∃ who, lastRequest (dueAt c s block) who = some r := by
    rw [queuedAt, List.mem_map]
    constructor
    · rintro ⟨⟨who, r⟩, he, rfl⟩
      rw [(env.iteration.perm _).mem_iff, DoubleMap.mem_prefixEntries, hs] at he
      exact ⟨who, he⟩
    · rintro ⟨who, h⟩
      refine ⟨(who, r), ?_, rfl⟩
      rw [(env.iteration.perm _).mem_iff, DoubleMap.mem_prefixEntries, hs, h]
  rw [hmem]
  exact ⟨fun ⟨_, h⟩ => (mem_of_lastRequest h).1,
    fun h => ⟨r.1, (lastRequest_eq_some_iff hnodup).2 ⟨h, rfl⟩⟩⟩

/-- Only the last entry of a queue may meet an answer that stops the worker. -/
def SurvivesToLast (env : Env AccountId) (hosts : ℕ → Host AccountId Public Signature)
    (queue : List (AccountId × Bytes)) : Prop :=
  ∀ i e, queue[i]? = some e → i + 1 < queue.length → Survivable env ((hosts i).http e.2)

omit [DecidableEq AccountId] [DecidableEq Public] in
/-- The attempts are made on the queue from its front… -/
theorem attempts_prefix (env : Env AccountId) (n : ℕ) (queue : List (AccountId × Bytes))
    (hosts : ℕ → Host AccountId Public Signature) :
    (attempts env n hosts queue).map (fun a => (a.applier, a.evidence)) <+: queue := by
  induction queue generalizing hosts with
  | nil => exact List.prefix_rfl
  | cons e queue ih =>
    rw [attempts]
    split
    · exact ⟨queue, rfl⟩
    · exact (List.prefix_cons_inj _).2 (ih _)

omit [DecidableEq AccountId] [DecidableEq Public] in
/-- …and reach its end exactly if no entry before the last stops the worker. -/
theorem length_attempts_iff (env : Env AccountId) (n : ℕ) (queue : List (AccountId × Bytes))
    (hosts : ℕ → Host AccountId Public Signature) :
    (attempts env n hosts queue).length = queue.length ↔ SurvivesToLast env hosts queue := by
  induction queue generalizing hosts with
  | nil => simp [attempts, SurvivesToLast]
  | cons e queue ih =>
    obtain ⟨who, evidence⟩ := e
    have hhead := returns_iff env (hosts 0) who evidence n
    rw [attempts]
    split
    · rename_i hpanic
      have hstop : ¬ Survivable env ((hosts 0).http evidence) := by
        rw [← hhead]
        rintro ⟨r, hr⟩
        rw [hpanic] at hr
        cases hr
      constructor
      · intro hlen i e hi hlt
        simp only [List.length_cons, List.length_nil] at hlen hlt
        omega
      · intro h
        rcases queue with _ | ⟨e, queue⟩
        · rfl
        · exact absurd (h 0 _ rfl (by simp)) hstop
    · rename_i r hr
      have hgo : Survivable env ((hosts 0).http evidence) := hhead.1 ⟨r, hr⟩
      rw [List.length_cons, List.length_cons, Nat.add_right_cancel_iff, ih]
      constructor
      · intro h i e hi hlt
        rcases i with _ | i
        · exact Option.some.inj hi ▸ hgo
        · exact h i e hi (by simpa using hlt)
      · intro h i e hi hlt
        exact h (i + 1) e hi (by simpa using hlt)

variable {c} in
omit [DecidableEq Public] in
/-- **What a run hands to the service**: the evidences announced for its block, each once, exactly
if no account announced two and no entry before the last stops the worker. -/
theorem worker_hands_iff {s : State AccountId Public Signature} (hs : QueueHolds c s)
    (env : Env AccountId) (hosts : ℕ → Host AccountId Public Signature) (block : ℕ) :
    (handed (offchainWorker env true hosts s block)).Perm ((dueAt c s block).map Prod.snd) ↔
      ((dueAt c s block).map Prod.fst).Nodup ∧
        SurvivesToLast env hosts (queuedAt env s block) := by
  have hprefix := attempts_prefix env block (queuedAt env s block) hosts
  have hkeys := (queuedAt_keys_perm hs env block).length_eq
  rw [List.length_map] at hkeys
  have hdedup := (List.dedup_sublist ((dueAt c s block).map Prod.fst)).length_le
  rw [List.length_map] at hdedup
  rw [offchainWorker, if_pos rfl, ← length_attempts_iff env block]
  have hle := hprefix.length_le
  rw [List.length_map] at hle
  constructor
  · intro hperm
    have hlen := hperm.length_eq
    simp only [handed, List.length_map] at hlen
    refine ⟨List.dedup_eq_self.1 ((List.dedup_sublist _).eq_of_length ?_), by omega⟩
    rw [List.length_map]
    omega
  · rintro ⟨hnodup, hlen⟩
    have hall := hprefix.eq_of_length (by rw [List.length_map, hlen])
    have hhanded : handed (attempts env block hosts (queuedAt env s block))
        = (queuedAt env s block).map Prod.snd := by
      have hsnd := congrArg (List.map Prod.snd) hall
      rwa [List.map_map] at hsnd
    rw [hhanded]
    exact (queuedAt_perm hs env hnodup).map Prod.snd

/-! ## Runs of blocks -/

/-- The extrinsics of a block. -/
abbrev Block (AccountId Public Signature : Type) :=
  List (Origin AccountId × Call AccountId Public Signature)

/-- The request an extrinsic makes, if it is one that succeeds. -/
def request? : Origin AccountId × Call AccountId Public Signature → Option (AccountId × Bytes)
  | (.signed who, .requestVerification evidence) => some (who, evidence)
  | _ => none

/-- The successful requests of a block, in order. -/
def requests (b : Block AccountId Public Signature) : List (AccountId × Bytes) :=
  b.filterMap request?

/-- What a block does: it opens, and its extrinsics are dispatched. -/
def blockSteps (b : Block AccountId Public Signature) : List (Step AccountId Public Signature) :=
  .newBlock :: b.map fun x => .extrinsic x.1 x.2

/-- A block, applied. -/
def applyBlock (s : State AccountId Public Signature) (b : Block AccountId Public Signature) :
    State AccountId Public Signature :=
  run (step c) s (blockSteps b)

/-- The state after the block of the given index. -/
def stateAt (n₀ : ℕ) (tr : List (Block AccountId Public Signature)) (j : ℕ) :
    State AccountId Public Signature :=
  run (applyBlock c) (State.genesis n₀) (tr.take (j + 1))

theorem queueHolds_run (n₀ : ℕ) (tr : List (Block AccountId Public Signature)) :
    QueueHolds c (run (applyBlock c) (State.genesis n₀) tr) :=
  invariant_run' (fun _ _ hs => invariant_run' (queueHolds_step c) _ hs) tr
    (queueHolds_genesis c n₀)

/-- **What an extrinsic announces**: the request it makes. -/
theorem dueAt_step (s : State AccountId Public Signature)
    (x : Origin AccountId × Call AccountId Public Signature) (block : ℕ) :
    (step c s (.extrinsic x.1 x.2)).blockNumber = s.blockNumber ∧
    dueAt c (step c s (.extrinsic x.1 x.2)) block = dueAt c s block ++
      if s.blockNumber + c.verifyDelay = block then (request? x).toList else [] := by
  obtain ⟨origin, call⟩ := x
  rcases hreq : request? (origin, call) with _ | ⟨who, evidence⟩
  · -- No request, no event.
    have hev : (step c s (.extrinsic origin call)).blockNumber = s.blockNumber ∧
        (step c s (.extrinsic origin call)).events = s.events := by
      rcases step_cases c s (.extrinsic origin call) with ⟨h, -⟩ | h | ⟨w, ev, h, -⟩ |
        ⟨n, p, sig, -, -, -, h⟩ | ⟨k, -, h⟩
      · cases h
      · simp only [h, and_self]
      · obtain ⟨rfl, rfl⟩ := Step.extrinsic.inj h
        cases hreq
      · rw [h]
        exact ⟨rfl, rfl⟩
      · rw [h]
        exact ⟨rfl, rfl⟩
    exact ⟨hev.1, by simp [dueAt, hev.2]⟩
  · obtain ⟨rfl, rfl⟩ : origin = .signed who ∧ call = .requestVerification evidence := by
      rw [request?.eq_def] at hreq
      split at hreq
      · rename_i heq
        cases heq
        cases hreq
        exact ⟨rfl, rfl⟩
      · cases hreq
    exact ⟨rfl, dueAt_depositEvent c _ who evidence block⟩

/-- **What a block announces**: its requests, for `VerifyDelay` blocks later. -/
theorem dueAt_applyBlock (s : State AccountId Public Signature)
    (b : Block AccountId Public Signature) (block : ℕ) :
    (applyBlock c s b).blockNumber = s.blockNumber + 1 ∧
    dueAt c (applyBlock c s b) block = dueAt c s block ++
      if s.blockNumber + 1 + c.verifyDelay = block then requests b else [] := by
  induction b using List.reverseRecOn with
  | nil => exact ⟨rfl, by simp [requests, applyBlock, blockSteps, dueAt, step]⟩
  | append_singleton b x ih =>
    obtain ⟨hnum, hdue⟩ := ih
    have hsteps : blockSteps (b ++ [x]) = blockSteps b ++ [.extrinsic x.1 x.2] := by
      simp [blockSteps]
    have hlast : applyBlock c s (b ++ [x]) = step c (applyBlock c s b) (.extrinsic x.1 x.2) := by
      rw [applyBlock, hsteps, run_concat, applyBlock]
    obtain ⟨hnum', hdue'⟩ := dueAt_step c (applyBlock c s b) x block
    have hreqs : requests (b ++ [x]) = requests b ++ (request? x).toList := by
      rw [requests, List.filterMap_append, ← requests]
      rcases hx : request? x with _ | r <;> simp [hx]
    rw [hlast, hnum', hdue', hdue, hnum, hreqs]
    refine ⟨rfl, ?_⟩
    split_ifs with h
    · rw [List.append_assoc]
    · rw [List.append_nil]

/-- **What a run of blocks announces**: for a block `VerifyDelay` behind one of the run, the
requests of that one, and for no earlier block anything. -/
theorem dueAt_run (n₀ : ℕ) (tr : List (Block AccountId Public Signature)) (block : ℕ) :
    (run (applyBlock c) (State.genesis n₀) tr).blockNumber = n₀ + tr.length ∧
    (∀ i, n₀ + i + 1 + c.verifyDelay = block →
      dueAt c (run (applyBlock c) (State.genesis n₀) tr) block = requests (tr.getD i [])) ∧
    (block ≤ n₀ + c.verifyDelay →
      dueAt c (run (applyBlock c) (State.genesis n₀) tr) block = []) := by
  induction tr using List.reverseRecOn with
  | nil => exact ⟨rfl, fun i _ => rfl, fun _ => rfl⟩
  | append_singleton tr b ih =>
    obtain ⟨hnum, hdue, hearly⟩ := ih
    obtain ⟨hnum', hdue'⟩ := dueAt_applyBlock c (run (applyBlock c) (State.genesis n₀) tr) b block
    rw [run_concat, hnum', hdue', hnum]
    refine ⟨by simp [Nat.add_assoc], fun i hi => ?_, fun hle => ?_⟩
    · rw [hdue i hi]
      rcases Nat.lt_trichotomy i tr.length with hlt | rfl | hgt
      · rw [if_neg (by omega)]
        simp [List.getElem?_append_left hlt]
      · rw [if_pos (by omega)]
        simp [requests]
      · rw [if_neg (by omega)]
        simp [List.getElem?_eq_none (show (tr ++ [b]).length ≤ i by simp; omega),
          List.getElem?_eq_none (show tr.length ≤ i by omega)]
    · rw [hearly hle, if_neg (by omega)]
      rfl

/-- **No verification request is lost.**  In a run of blocks with one worker run at the end of each,
every run hands to the service exactly the evidences announced `VerifyDelay` blocks before it, each
once, if and only if no account made two successful requests in one block and no entry but the last
of a queue meets an answer that stops the worker. -/
theorem requests_handed_iff (env : Env AccountId) (n₀ : ℕ)
    (tr : List (Block AccountId Public Signature))
    (hosts : ℕ → ℕ → Host AccountId Public Signature) :
    (∀ j < tr.length, (handed (offchainWorker env true (hosts j) (stateAt c n₀ tr j)
        (n₀ + j + 1))).Perm ((dueAt c (stateAt c n₀ tr j) (n₀ + j + 1)).map Prod.snd)) ↔
    ∀ i, i + c.verifyDelay < tr.length →
      ((requests (tr.getD i [])).map Prod.fst).Nodup ∧
      SurvivesToLast env (hosts (i + c.verifyDelay))
        (queuedAt env (stateAt c n₀ tr (i + c.verifyDelay)) (n₀ + (i + c.verifyDelay) + 1)) := by
  have hhands : ∀ j, _ := fun j => worker_hands_iff
    (s := stateAt c n₀ tr j) (queueHolds_run c n₀ _) env (hosts j) (n₀ + j + 1)
  have hdue : ∀ i, i + c.verifyDelay < tr.length →
      dueAt c (stateAt c n₀ tr (i + c.verifyDelay)) (n₀ + (i + c.verifyDelay) + 1)
        = requests (tr.getD i []) := by
    intro i hi
    rw [stateAt, (dueAt_run c n₀ _ _).2.1 i (by omega)]
    congr 1
    simp [show i < i + c.verifyDelay + 1 by omega]
  constructor
  · intro h i hi
    rw [← hdue i hi]
    exact (hhands _).1 (h _ hi)
  · intro h j hj
    refine (hhands j).2 ?_
    by_cases hearly : j < c.verifyDelay
    · -- Nothing was announced yet, so nothing is queued.
      have hnone : dueAt c (stateAt c n₀ tr j) (n₀ + j + 1) = [] :=
        (dueAt_run c n₀ _ _).2.2 (by omega)
      have hempty := (queuedAt_keys_perm (queueHolds_run c n₀ (tr.take (j + 1))) env
        (n₀ + j + 1)).length_eq
      rw [← stateAt, hnone] at hempty
      refine ⟨by rw [hnone]; exact List.nodup_nil, fun i e hi hlt => ?_⟩
      simp only [List.length_map, List.map_nil, List.dedup_nil, List.length_nil] at hempty
      omega
    · obtain ⟨i, rfl⟩ : ∃ i, j = i + c.verifyDelay := ⟨j - c.verifyDelay, by omega⟩
      rw [hdue i hj]
      exact h i hj

/-- Two requests of one account in one block: the worker is handed the second alone. -/
theorem request_lost :
    ¬ ∀ (c : Config ℕ ℕ ℕ) (env : Env ℕ) (n₀ : ℕ) (tr : List (Block ℕ ℕ ℕ))
      (hosts : ℕ → ℕ → Host ℕ ℕ ℕ), ∀ j < tr.length,
        (handed (offchainWorker env true (hosts j) (stateAt c n₀ tr j) (n₀ + j + 1))).Perm
          ((dueAt c (stateAt c n₀ tr j) (n₀ + j + 1)).map Prod.snd) := by
  intro h
  let twice : Block ℕ ℕ ℕ := [(.signed 7, .requestVerification (ascii "first")),
    (.signed 7, .requestVerification (ascii "second"))]
  have hperm := h ⟨5, 600, 2 ^ 20, fun _ _ => true⟩ ⟨fun _ => none, fun _ => none, Iteration.id _⟩ 0
    [twice, [], [], [], [], []] (fun _ _ => ⟨fun _ => .notSent, [], fun _ => none, fun _ => .ok ()⟩)
    5 (by decide)
  exact absurd hperm.length_eq (by decide)

end Verifier
